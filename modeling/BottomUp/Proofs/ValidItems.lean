import BottomUp.Proofs.Leading
import BottomUp.Proofs.Outline
import BottomUp.Proofs.Resolution

/-!
# States hold the valid items

An item is *valid* at the end of a symbol string if a chain goes down from the start symbol
to its left-hand side, and the string is what the chain leaves to the left followed by what
the item has read.  The automaton of a start symbol has the valid items and no others: a
string labels a path if and only if an item is valid at its end, and the state it leads to
holds the items that are valid there (`valid_items`).

One half goes along the path.  Closure and goto keep validity, and they also keep whatever a
lookahead rule says of what a chain leaves to the right (`LookaheadRule.Tracks`).  Rule
LR(1) says that the lookahead of an item leads that string.

The other half goes down the chain, and needs the laws of an outline only.  What is expected
at the end of a chain is whatever the string to its right begins with, once that is
rewritten to terminals (`Outline.Lawful.exists_spells`).
-/

namespace BottomUp

variable {T N V Λ : Type}

/-! ## Valid items -/

/-- A chain from the start symbol leaves so much to the right of the left-hand side of the
production, and the string ends where the production has read so many symbols. -/
def Grammar.Valid (g : Grammar T N V) (start : N) (γ : List (Symbol T N)) (p d : Nat)
    (right : List (Symbol T N)) : Prop :=
  ∃ production left, g.productions[p]? = some production ∧ d ≤ production.rhs.length ∧
    g.Chain start left production.lhs right ∧ γ = left ++ production.rhs.take d

namespace Grammar.Valid

variable {g : Grammar T N V} {start : N} {γ right : List (Symbol T N)} {p d : Nat}

/-- One more symbol is read. -/
theorem next {s : Symbol T N} (h : g.Valid start γ p d right) (hs : (g.rhs p)[d]? = some s) :
    g.Valid start (γ ++ [s]) p (d + 1) right := by
  obtain ⟨production, left, hp, -, hc, rfl⟩ := h
  rw [rhs_of_getElem? hp] at hs
  refine ⟨production, left, hp, (List.getElem?_eq_some_iff.mp hs).1, hc, ?_⟩
  rw [List.take_add_one, hs, Option.toList_some, List.append_assoc]

variable [Ordered N]

theorem begin (h : g.Starts start p) : g.Valid start [] p 0 [] := by
  obtain ⟨production, hp, hl⟩ := h.exists_production
  exact ⟨production, [], hp, Nat.zero_le _, hl ▸ .start, rfl⟩

/-- The chain goes down to the nonterminal right of the dot. -/
theorem demand {q : Nat} {n : N} {rest : List (Symbol T N)} (h : g.Valid start γ p d right)
    (hr : (g.rhs p).drop d = .nonterminal n :: rest) (hq : q ∈ g.alternatives n) :
    g.Valid start γ q 0 (rest ++ right) := by
  obtain ⟨production, left, hp, -, hc, rfl⟩ := h
  obtain ⟨alternative, ha, rfl⟩ := mem_alternatives.mp hq
  rw [rhs_of_getElem? hp] at hr
  have whole : production.rhs =
      production.rhs.take d ++ .nonterminal alternative.lhs :: rest := by
    rw [← hr, List.take_append_drop]
  refine ⟨alternative, left ++ production.rhs.take d, ha, Nat.zero_le _, ?_, by simp⟩
  exact .down hc (List.mem_of_getElem? hp) whole

end Grammar.Valid

/-! ## From paths to chains -/

variable [Ordered T] [Ordered N] [Ordered Λ] {g : Grammar T N V} {start : N}

/-- What the lookaheads of the rule mean holds of what a chain leaves to the right. -/
structure LookaheadRule.Tracks (rule : LookaheadRule g Λ)
    (means : List (Symbol T N) → Λ → Prop) : Prop where
  initial : means [] rule.initial
  inherit {rest right : List (Symbol T N)} {a b : Λ} : means right a → b ∈ rule.inherit rest a →
    means (rest ++ right) b

namespace LookaheadRule

omit [Ordered T] in
/-- The lookaheads of LR(0) items mean nothing. -/
theorem tracks_lr0 : (lr0 g).Tracks fun _ _ => True := ⟨trivial, fun _ _ => trivial⟩

/-- The lookahead of an LR(1) item leads what is to the right. -/
theorem tracks_lr1 : (lr1 g).Tracks g.Leads where
  initial := .refl
  inherit ha hb := FirstSets.leads_of_mem_ofSequence ha (SortedSet.mem_toList.mp hb)

end LookaheadRule

/-- All items of the set are valid at the end of the string, and their lookaheads mean what
they should. -/
def ItemSet.AllValid (g : Grammar T N V) (start : N) (means : List (Symbol T N) → Λ → Prop)
    (γ : List (Symbol T N)) (items : ItemSet Λ) : Prop :=
  ∀ item ∈ items, ∃ right,
    g.Valid start γ item.production item.dot right ∧ means right item.ahead

namespace ItemSet.AllValid

variable {rule : LookaheadRule g Λ} {means : List (Symbol T N) → Λ → Prop}
  {γ : List (Symbol T N)} {items : ItemSet Λ}

omit [Ordered T] in
/-- What valid items demand is valid. -/
theorem closure (hc : rule.Confined) (ht : rule.Tracks means) (h : AllValid g start means γ items) :
    AllValid g start means γ (closure rule items) := by
  intro item hi
  replace hi := (mem_closure_iff hc).mp hi
  induction hi with
  | given hi => exact h _ hi
  | meet _ hr hb hq ih =>
      obtain ⟨right, hv, ha⟩ := ih
      exact ⟨_, hv.demand hr hq, ht.inherit ha hb⟩

theorem goto (hc : rule.Confined) (ht : rule.Tracks means) (h : AllValid g start means γ items)
    (s : Symbol T N) : AllValid g start means (γ ++ [s]) (goto rule items s) := by
  refine AllValid.closure hc ht fun item hi => ?_
  obtain ⟨before, hb, hs, rfl⟩ := mem_advancePast.mp hi
  obtain ⟨right, hv, ha⟩ := h before hb
  obtain ⟨production, hp, hs⟩ := Item.exists_of_next? hs
  exact ⟨right, hv.next (by rwa [Grammar.rhs_of_getElem? hp]), ha⟩

end ItemSet.AllValid

namespace Machine

open ItemSet

theorem follow?_concat {machine : Machine T N Λ} {γ : List (Symbol T N)} {s : Symbol T N}
    {j : Nat} : machine.follow? 0 (γ ++ [s]) = some j ↔
      ∃ i, machine.follow? 0 γ = some i ∧ machine.next? i s = some j := by
  have one (i : Nat) : machine.follow? i [s] = machine.next? i s := Option.bind_fun_some _
  simp only [follow?_append, Option.bind_eq_some_iff, one]

/-- A path leads to every state. -/
theorem exists_follow? {rule : LookaheadRule g Λ} {kernel : ItemSet Λ} (hc : rule.Confined)
    (hk : kernel.isEmpty = false) {i : Nat} (h : i < (build rule kernel).states.length) :
    ∃ γ, (build rule kernel).follow? 0 γ = some i := by
  obtain ⟨own, hi⟩ := exists_kernel_of_lt h
  have generated := (mem_kernels hc hk).mp (List.mem_of_getElem? hi)
  clear h
  induction generated generalizing i with
  | seed hm =>
      rw [List.mem_singleton] at hm
      subst hm
      refine ⟨[], ?_⟩
      rw [follow?, ← idxOf_kernels hi, idxOf_kernels (getElem?_kernels_zero hk)]
  | @step before _ hb hn ih =>
      obtain ⟨s, hs, rfl⟩ := mem_nextKernels.mp hn
      have hbefore := getElem?_idxOf_kernels ((mem_kernels hc hk).mpr hb)
      obtain ⟨γ, hγ⟩ := ih hbefore
      refine ⟨γ ++ [s], follow?_concat.mpr ⟨_, hγ, ?_⟩⟩
      rw [next?_build hbefore, if_pos hs, idxOf_kernels hi]

/-- The state at the end of a path holds only items that are valid at the end of its
string. -/
theorem allValid_of_follow? {rule : LookaheadRule g Λ} {means : List (Symbol T N) → Λ → Prop}
    {p : Nat} (hs : g.Starts start p) (hc : rule.Confined) (ht : rule.Tracks means)
    (γ : List (Symbol T N)) : ∀ {i : Nat}, (ofStart rule p).follow? 0 γ = some i →
      ((ofStart rule p).items i).AllValid g start means γ := by
  induction γ using List.reverseRecOn with
  | nil =>
      intro i h
      cases h
      rw [ofStart, items_zero hc isEmpty_startKernel]
      refine ItemSet.AllValid.closure hc ht fun item hi => ?_
      obtain rfl := mem_startKernel.mp hi
      exact ⟨[], .begin hs, ht.initial⟩
  | append_singleton γ s ih =>
      intro j h
      obtain ⟨i, hi, hn⟩ := follow?_concat.mp h
      rw [ofStart, items_of_next? hc isEmpty_startKernel hn]
      exact (ih hi).goto hc ht s

end Machine

/-! ## From chains to paths -/

namespace Outline

/-- The string labels a path from state 0 to the state. -/
inductive Spells (o : Outline T N) : List (Symbol T N) → Nat → Prop
  | nil : Spells o [] 0
  | concat {γ : List (Symbol T N)} {i j : Nat} {s : Symbol T N} : Spells o γ i →
      o.next? i s = some j → Spells o (γ ++ [s]) j

omit [Ordered T] [Ordered N] in
theorem spells_concat {o : Outline T N} {γ : List (Symbol T N)} {s : Symbol T N} {j : Nat} :
    o.Spells (γ ++ [s]) j ↔ ∃ i, o.Spells γ i ∧ o.next? i s = some j := by
  constructor
  · intro h
    generalize hw : γ ++ [s] = whole at h
    cases h with
    | nil => simp at hw
    | concat h hn =>
        obtain ⟨rfl, hs⟩ := List.append_inj' hw rfl
        cases hs
        exact ⟨_, h, hn⟩
  · rintro ⟨i, h, hn⟩
    exact h.concat hn

omit [Ordered T] [Ordered N] in
theorem spells_nil {o : Outline T N} {i : Nat} : o.Spells [] i ↔ i = 0 := by
  constructor
  · intro h
    generalize hw : ([] : List (Symbol T N)) = whole at h
    cases h with
    | nil => rfl
    | concat _ _ => simp at hw
  · rintro rfl
    exact .nil

omit [Ordered T] [Ordered N] in
theorem Spells.unique {o : Outline T N} {γ : List (Symbol T N)} {i : Nat} (h : o.Spells γ i) :
    ∀ {j : Nat}, o.Spells γ j → i = j := by
  induction h with
  | nil => exact fun h' => (spells_nil.mp h').symm
  | concat _ hn ih =>
      intro j h'
      obtain ⟨i', hi', hn'⟩ := spells_concat.mp h'
      cases ih hi'
      exact Option.some.inj (hn.symm.trans hn')

omit [Ordered T] [Ordered N] in
/-- The last symbol of a path is that of a transition where the rest of it leads. -/
theorem Spells.next_eq {o : Outline T N} {γ : List (Symbol T N)} {s : Symbol T N} {i j : Nat}
    (h : o.Spells γ i) (hs : o.Spells (γ ++ [s]) j) : o.next? i s = some j := by
  obtain ⟨k, hk, hn⟩ := spells_concat.mp hs
  exact h.unique hk ▸ hn

/-- The paths of an outline are those of its automaton. -/
theorem spells_outline {machine : Machine T N Λ} {aheads : Item Λ → List (Lookahead T)}
    {γ : List (Symbol T N)} : ∀ {i : Nat},
      (machine.outline aheads).Spells γ i ↔ machine.follow? 0 γ = some i := by
  induction γ using List.reverseRecOn with
  | nil =>
      intro i
      rw [spells_nil, Machine.follow?, Option.some.injEq, eq_comm]
  | append_singleton γ s ih =>
      intro j
      rw [spells_concat, Machine.follow?_concat]
      exact exists_congr fun i => and_congr_left fun _ => ih

namespace Lawful

variable {o : Outline T N} {p : Nat}

/-- An item that is expected at the end of a path is expected after some of what is right of
its dot. -/
theorem exists_spells_append (h : o.Lawful g p) {q : Nat} {a : Lookahead T} :
    ∀ {symbols rest γ : List (Symbol T N)} {i d : Nat}, o.Spells γ i → o.expects i q d a →
      (g.rhs q).drop d = symbols ++ rest →
      ∃ j, o.Spells (γ ++ symbols) j ∧ o.expects j q (d + symbols.length) a
  | [], _, γ, i, _, hγ, he, _ => ⟨i, (List.append_nil γ).symm ▸ hγ, he⟩
  | s :: symbols, rest, γ, i, d, hγ, he, hr => by
      have next : (g.rhs q)[d]? = some s := by
        rw [← List.head?_drop, hr]
        rfl
      have further : (g.rhs q).drop (d + 1) = symbols ++ rest := by
        rw [← List.tail_drop, hr]
        rfl
      obtain ⟨j, hj⟩ := h.exists_next (h.holds_of_expects he) next
      obtain ⟨k, hk, hke⟩ :=
        h.exists_spells_append (hγ.concat hj) (h.expects_next hj he next) further
      rw [List.append_assoc] at hk
      exact ⟨k, hk, by rwa [List.length_cons, Nat.add_comm symbols.length, ← Nat.add_assoc]⟩

/-- What a chain leaves to the left labels a path, and where it ends the productions of the
last nonterminal are expected before whatever can follow to the right. -/
theorem exists_spells (h : o.Lawful g p) (hs : g.Starts start p) {left right : List (Symbol T N)}
    {n : N} (hc : g.Chain start left n right) {w : List T}
    (hw : g.Derives right (w.map .terminal)) :
    ∃ i, o.Spells left i ∧ ∀ q ∈ g.alternatives n, o.expects i q 0 w.head? := by
  induction hc generalizing w with
  | start =>
      refine ⟨0, .nil, fun q hq => ?_⟩
      rw [hs.alternatives, List.mem_singleton] at hq
      obtain rfl : w = [] := by
        have := Grammar.Derives.eq_of_terminals (w := []) hw
        simpa using this
      exact hq ▸ h.expects_zero
  | @down left right before after production n _ hp hr ih =>
      obtain ⟨c₁, c₂, hw', h₁, h₂⟩ := hw.split
      obtain ⟨w₁, w₂, rfl, rfl, rfl⟩ := List.map_eq_append_iff.mp hw'
      obtain ⟨i, hi, he⟩ := ih h₂
      obtain ⟨q, hq⟩ := List.getElem?_of_mem hp
      have whole : (g.rhs q).drop 0 = before ++ .nonterminal n :: after := by
        rw [Grammar.rhs_of_getElem? hq, List.drop_zero, hr]
      obtain ⟨j, hj, hje⟩ := h.exists_spells_append hi
        (he q (Grammar.mem_alternatives.mpr ⟨production, hq, rfl⟩)) whole
      refine ⟨j, hj, fun q' hq' => h.expects_demanded hje ?_ hq'
        (FirstSets.head?_mem_ofSequence h₁ w₂)⟩
      rw [Nat.zero_add, Grammar.rhs_of_getElem? hq, hr, List.drop_left]

/-- Behind a chain there is a path over the beginning of each production of the last
nonterminal. -/
theorem exists_spells_production (h : o.Lawful g p) (hs : g.Starts start p)
    {left right : List (Symbol T N)} {n : N} (hc : g.Chain start left n right) {w : List T}
    (hw : g.Derives right (w.map .terminal)) {q : Nat} {production : Production T N V}
    (hq : g.productions[q]? = some production) (hl : production.lhs = n)
    {symbols rest : List (Symbol T N)} (hr : production.rhs = symbols ++ rest) :
    ∃ i, o.Spells (left ++ symbols) i ∧ o.expects i q symbols.length w.head? := by
  obtain ⟨i, hi, he⟩ := h.exists_spells hs hc hw
  have whole : (g.rhs q).drop 0 = symbols ++ rest := by
    rw [Grammar.rhs_of_getElem? hq, List.drop_zero, hr]
  obtain ⟨j, hj, hje⟩ := h.exists_spells_append hi
    (he q (Grammar.mem_alternatives.mpr ⟨production, hq, hl⟩)) whole
  exact ⟨j, hj, by rwa [Nat.zero_add] at hje⟩

/-- A valid item is expected where its string leads. -/
theorem exists_spells_of_valid (h : o.Lawful g p) (hs : g.Starts start p)
    {γ right : List (Symbol T N)} {q d : Nat} (hv : g.Valid start γ q d right) {w : List T}
    (hw : g.Derives right (w.map .terminal)) : ∃ i, o.Spells γ i ∧ o.expects i q d w.head? := by
  obtain ⟨production, left, hq, hd, hc, rfl⟩ := hv
  obtain ⟨i, hi, he⟩ := h.exists_spells_production hs hc hw hq rfl
    (List.take_append_drop d production.rhs).symm
  exact ⟨i, hi, by rwa [List.length_take_of_le hd] at he⟩

/-- The start production is completed where a path goes over its right-hand side. -/
theorem expects_whole (h : o.Lawful g p) {i : Nat} (hi : o.Spells (g.rhs p) i) :
    o.expects i p (g.rhs p).length none := by
  have whole : (g.rhs p).drop 0 = g.rhs p ++ [] := by rw [List.drop_zero, List.append_nil]
  obtain ⟨j, hj, he⟩ := h.exists_spells_append .nil h.expects_zero whole
  rw [hi.unique hj]
  rwa [Nat.zero_add] at he

end Lawful

end Outline

/-! ## Exactness -/

namespace Grammar

/-- A path leads to every state of an outline. -/
theorem exists_spells_outline {method : Method} {i : Nat}
    (h : i < (g.outline method start p).size) : ∃ γ, (g.outline method start p).Spells γ i := by
  cases method with
  | slr =>
      obtain ⟨γ, hγ⟩ := Machine.exists_follow? LookaheadRule.confined_lr0
        Machine.isEmpty_startKernel h
      exact ⟨γ, Outline.spells_outline.mpr hγ⟩
  | lr1 =>
      obtain ⟨γ, hγ⟩ := Machine.exists_follow? LookaheadRule.confined_lr1
        Machine.isEmpty_startKernel h
      exact ⟨γ, Outline.spells_outline.mpr hγ⟩

/-- At the end of a path of an outline only valid items are held. -/
theorem exists_valid {method : Method} {p i q d : Nat} (hs : g.Starts start p)
    {γ : List (Symbol T N)} (hγ : (g.outline method start p).Spells γ i)
    (h : (g.outline method start p).holds i q d) : ∃ right, g.Valid start γ q d right := by
  cases method with
  | slr =>
      obtain ⟨item, hi, rfl, rfl⟩ := Machine.holds_outline.mp h
      obtain ⟨right, hv, _⟩ := Machine.allValid_of_follow? hs LookaheadRule.confined_lr0
        LookaheadRule.tracks_lr0 γ (Outline.spells_outline.mp hγ) item hi
      exact ⟨right, hv⟩
  | lr1 =>
      obtain ⟨item, hi, rfl, rfl⟩ := Machine.holds_outline.mp h
      obtain ⟨right, hv, _⟩ := Machine.allValid_of_follow? hs LookaheadRule.confined_lr1
        LookaheadRule.tracks_lr1 γ (Outline.spells_outline.mp hγ) item hi
      exact ⟨right, hv⟩

/-- For every grammar that is fit for a table and every symbol string: the string labels a
path of the LR(1) automaton to a state that holds an item only if the item is valid at its
end with a lookahead that leads what the chain leaves to the right, and it labels one to a
state that holds the item if that derives terminals which the lookahead is the first of. -/
theorem valid_items {p : Nat} (hv : g.validate start = .ok p) (γ : List (Symbol T N)) :
    ∃ machine, g.machine (.lr1 g) start = .ok machine ∧
      (∀ i, machine.follow? 0 γ = some i → ∀ item ∈ machine.items i, ∃ right,
        g.Valid start γ item.production item.dot right ∧ g.Leads right item.ahead) ∧
      ∀ q d right, g.Valid start γ q d right → ∀ w : List T, g.Derives right (w.map .terminal) →
        ∃ i, machine.follow? 0 γ = some i ∧ ⟨q, d, w.head?⟩ ∈ machine.items i := by
  have hs := starts_of_validate hv
  refine ⟨Machine.ofStart (.lr1 g) p, by rw [machine, hv]; rfl, ?_, ?_⟩
  · intro i hi
    exact Machine.allValid_of_follow? hs LookaheadRule.confined_lr1
      LookaheadRule.tracks_lr1 γ hi
  · intro q d right hvalid w hw
    obtain ⟨i, hi, he⟩ := (lawful_outline hs .lr1).exists_spells_of_valid hs hvalid hw
    obtain ⟨item, hm, rfl, rfl, ha⟩ := Machine.expects_outline.mp he
    rw [List.mem_singleton.mp ha]
    exact ⟨i, Outline.spells_outline.mp hi, hm⟩

/-- After a term and the operator a term is expected that the operator follows. -/
theorem valid_items_sums : sums.validate 0 = .ok 0 ∧
    ∃ machine i, sums.machine (.lr1 sums) 0 = .ok machine ∧
      machine.follow? 0 [.nonterminal 1, .terminal 1] = some i ∧
      ⟨1, 2, some 1⟩ ∈ machine.items i ∧
      ∀ item ∈ machine.items i, ∃ right,
        sums.Valid 0 [.nonterminal 1, .terminal 1] item.production item.dot right ∧
          sums.Leads right item.ahead := by
  refine ⟨validate_sums, ?_⟩
  obtain ⟨machine, hm, only, all⟩ := valid_items validate_sums [.nonterminal 1, .terminal 1]
  have outer : sums.Chain 0 ([] ++ []) 1 ([] ++ []) := .down .start (.head _) rfl
  have inner : sums.Chain 0 ([] ++ []) 1 ([.terminal 1, .nonterminal 1] ++ []) :=
    .down (p := ⟨1, [.nonterminal 1, .terminal 1, .nonterminal 1], none, total⟩) outer
      (.tail _ (.head _)) rfl
  have valid : sums.Valid 0 [.nonterminal 1, .terminal 1] 1 2 [.terminal 1, .nonterminal 1] :=
    ⟨_, [], rfl, by decide, inner, rfl⟩
  have follows : sums.Derives [.terminal 1, .nonterminal 1] ([1, 0].map .terminal) :=
    .tail .refl (.apply (p := ⟨1, [.terminal 0], none, total⟩) [.terminal 1] []
      (.tail _ (.tail _ (.head _))))
  obtain ⟨i, hi, hmem⟩ := all 1 2 _ valid [1, 0] follows
  exact ⟨machine, i, hm, hi, hmem, only i hi⟩

end Grammar

end BottomUp
