import BottomUp.Proofs.ValidItems

/-!
# LR(0) states hold the items of viable prefixes

In an LR(0) automaton nothing has to follow an item, so what a chain leaves to the right does
not matter.  Whatever stands right of a dot can be read (`Machine.exists_follow?_append`), and
each nonterminal on a chain brings in its productions.  So a string labels a path to a state
that holds an item exactly if the item is valid at its end for some chain
(`Grammar.lr0_items_iff`), also in grammars with nonterminals that derive no terminals.
-/

namespace BottomUp

variable {T N V Λ : Type} [Ordered T] [Ordered N] [Ordered Λ] {g : Grammar T N V} {start : N}
  {p : Nat}

namespace Machine

/-- What stands right of the dot of an item labels a path, along which the item is read. -/
theorem exists_follow?_append {rule : LookaheadRule g Λ} (hc : rule.Confined)
    {symbols rest : List (Symbol T N)} {i : Nat} {item : Item Λ}
    (hi : item ∈ (ofStart rule p).items i) (hr : item.rest g = symbols ++ rest) :
    ∃ j, (ofStart rule p).follow? i symbols = some j ∧
      ⟨item.production, item.dot + symbols.length, item.ahead⟩ ∈ (ofStart rule p).items j := by
  induction symbols generalizing i item with
  | nil => exact ⟨i, rfl, by simpa using hi⟩
  | cons s symbols ih =>
      have next : item.next? g = some s := by
        rw [Item.next?, hr]
        rfl
      have further : item.advance.rest g = symbols ++ rest := by
        rw [Item.rest, Item.advance, ← List.tail_drop]
        exact congrArg List.tail hr
      obtain ⟨j, hj⟩ := exists_next? hi next
      obtain ⟨k, hk, hmem⟩ := ih (mem_items_of_next? hc hj hi next) further
      refine ⟨k, ?_, ?_⟩
      · rw [follow?, ofStart, hj]
        exact hk
      · rwa [List.length_cons, Nat.add_comm symbols.length, ← Nat.add_assoc]

/-- What a chain leaves to the left labels a path to a state with the productions of the last
nonterminal. -/
theorem exists_follow?_of_chain (hs : g.Starts start p) {left right : List (Symbol T N)} {n : N}
    (hchain : g.Chain start left n right) :
    ∃ i, (ofStart (.lr0 g) p).follow? 0 left = some i ∧
      ∀ q ∈ g.alternatives n, ⟨q, 0, ()⟩ ∈ (ofStart (.lr0 g) p).items i := by
  have hc := LookaheadRule.confined_lr0 (g := g)
  induction hchain with
  | start =>
      refine ⟨0, rfl, fun q hq => ?_⟩
      rw [hs.alternatives, List.mem_singleton] at hq
      rw [ofStart, items_zero hc isEmpty_startKernel, hq]
      exact ItemSet.mem_closure_of_mem hc (mem_startKernel.mpr rfl)
  | @down left right before after production n _ hp hr ih =>
      obtain ⟨i, hi, alternatives⟩ := ih
      obtain ⟨q, hq⟩ := List.getElem?_of_mem hp
      have begun := alternatives q (Grammar.mem_alternatives.mpr ⟨production, hq, rfl⟩)
      have whole : (⟨q, 0, ()⟩ : Lr0Item).rest g = before ++ .nonterminal n :: after := by
        rw [Item.rest, Grammar.rhs_of_getElem? hq, List.drop_zero, hr]
      obtain ⟨j, hj, hmem⟩ := exists_follow?_append hc begun whole
      rw [Nat.zero_add] at hmem
      have dotted : (⟨q, before.length, ()⟩ : Lr0Item).rest g = .nonterminal n :: after := by
        rw [Item.rest, Grammar.rhs_of_getElem? hq, hr, List.drop_left]
      refine ⟨j, ?_, fun q' hq' => mem_items_of_rest hc hmem dotted List.mem_cons_self hq'⟩
      rw [follow?_append, hi]
      exact hj

end Machine

namespace Grammar

/-- For every grammar that is fit for a table, every symbol string and every production that
is split in two: a chain goes down to the left-hand side and leaves to the left what the string
begins with before the first part of the production, if and only if the string labels a path
of the LR(0) automaton to a state that holds the production with its dot between the parts. -/
theorem lr0_items_iff (hv : g.validate start = .ok p) :
    ∃ machine, g.machine (.lr0 g) start = .ok machine ∧
      ∀ (γ : List (Symbol T N)) (q : Nat) (production : Production T N V)
        (before after : List (Symbol T N)),
        g.productions[q]? = some production → production.rhs = before ++ after →
        ((∃ left right, g.Chain start left production.lhs right ∧ left ++ before = γ) ↔
          ∃ i, machine.follow? 0 γ = some i ∧ ⟨q, before.length, ()⟩ ∈ machine.items i) := by
  have hs := starts_of_validate hv
  have hc := LookaheadRule.confined_lr0 (g := g)
  refine ⟨Machine.ofStart (.lr0 g) p, by rw [machine, hv]; rfl, ?_⟩
  intro γ q production before after hq hrhs
  constructor
  · rintro ⟨left, right, chain, rfl⟩
    obtain ⟨i, hi, alternatives⟩ := Machine.exists_follow?_of_chain hs chain
    have begun := alternatives q (mem_alternatives.mpr ⟨production, hq, rfl⟩)
    have whole : (⟨q, 0, ()⟩ : Lr0Item).rest g = before ++ after := by
      rw [Item.rest, rhs_of_getElem? hq, List.drop_zero, hrhs]
    obtain ⟨j, hj, hmem⟩ := Machine.exists_follow?_append hc begun whole
    rw [Nat.zero_add] at hmem
    refine ⟨j, ?_, hmem⟩
    rw [Machine.follow?_append, hi]
    exact hj
  · rintro ⟨i, hi, hmem⟩
    obtain ⟨right, valid, _⟩ :=
      Machine.allValid_of_follow? hs hc LookaheadRule.tracks_lr0 γ hi _ hmem
    obtain ⟨_, left, hq', _, chain, rfl⟩ := valid
    cases hq.symm.trans hq'
    exact ⟨left, right, chain, by rw [hrhs, List.take_left]⟩

/-- After a term and the operator a sum may go on with a term, and what may stand there is
what a chain leads to. -/
theorem lr0_items_sums : sums.validate 0 = .ok 0 ∧
    ∃ machine i, sums.machine (.lr0 sums) 0 = .ok machine ∧
      machine.follow? 0 [.nonterminal 1, .terminal 1] = some i ∧
      ⟨1, 2, ()⟩ ∈ machine.items i ∧ ⟨2, 1, ()⟩ ∉ machine.items i := by
  refine ⟨validate_sums, ?_⟩
  obtain ⟨machine, hm, items⟩ := lr0_items_iff validate_sums
  have outer : sums.Chain 0 ([] ++ []) 1 ([] ++ []) := .down .start (.head _) rfl
  obtain ⟨i, hi, hmem⟩ := (items [.nonterminal 1, .terminal 1] 1
    ⟨1, [.nonterminal 1, .terminal 1, .nonterminal 1], none, total⟩ [.nonterminal 1, .terminal 1]
    [.nonterminal 1] rfl rfl).mp ⟨[], [], outer, rfl⟩
  refine ⟨machine, i, hm, hi, hmem, fun h => ?_⟩
  obtain ⟨left, _, _, he⟩ := (items [.nonterminal 1, .terminal 1] 2
    ⟨1, [.terminal 0], none, total⟩ [.terminal 0] [] rfl rfl).mpr ⟨i, hi, h⟩
  have last := congrArg List.getLast? he
  rw [List.getLast?_concat] at last
  cases last

end Grammar

end BottomUp
