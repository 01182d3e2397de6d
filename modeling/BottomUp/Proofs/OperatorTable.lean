import BottomUp.Proofs.Exactness
import BottomUp.Proofs.Operators
import BottomUp.Proofs.Simulation

/-!
# Tables of operator grammars

The paths of the automaton of an operator grammar go over expressions with operators behind
them (`Operators.Waits`), and then over an operand, an expression, or an operator and an
expression more.  Which items there are at the end of a path, and with them the candidates
of a cell, can be told from the path (`holds_cases`, `next_cases`, `completed_cases`).

Only behind an operation do two actions compete: the next operator can be shifted, or the
operation reduced.  Both have the precedences of their operators (`ranked`), so nothing is
recorded as a conflict (`settled`), and what the table does is the order of operators
(`action_right`, `action_left`, `action_tie`).  What it does elsewhere does not depend on
the order.  Where a lookahead cannot follow it may reduce or not, depending on the method,
and it is enough to know which moves a path allows (`Allows`).
-/

namespace BottomUp

variable {T N V : Type}

namespace Operators

/-! ## Paths -/

/-- Some expressions, each with an operator behind it.  An operand is awaited. -/
inductive Waits (ops : Operators T N V) : List (Symbol T N) → Prop
  | nil : Waits ops []
  | more {π : List (Symbol T N)} {t : T} : Waits ops π → t ∈ ops.operators →
      Waits ops (π ++ [.nonterminal ops.expr, .terminal t])

/-- An expression can end before the lookahead: it is an operator or the end of the input. -/
def Ends (ops : Operators T N V) (a : Lookahead T) : Prop := ∀ t, a = some t → t ∈ ops.operators

variable {ops : Operators T N V} {π γ right : List (Symbol T N)} {t : T} {p d : Nat}

theorem Waits.getLast?_cases (h : ops.Waits π) :
    π = [] ∨ ∃ t ∈ ops.operators, π.getLast? = some (.terminal t) := by
  cases h with
  | nil => exact .inl rfl
  | more _ ht => exact .inr ⟨_, ht, by simp⟩

section

variable [DecidableEq N]

/-- To the left of a nonterminal stand expressions with operators behind them, and nothing to
the left of the nonterminal of sentences. -/
theorem waits_of_chain {left : List (Symbol T N)} {n : N}
    (h : ops.grammar.Chain ops.start left n right) :
    ops.Waits left ∧ (n = ops.start → left = []) := by
  induction h with
  | start => exact ⟨.nil, fun _ => rfl⟩
  | @down left right before after production n _ hp hr ih =>
      obtain ⟨hw, hleft⟩ := ih
      rcases ops.mem_productions.mp hp with rfl | ⟨t, ht, rfl⟩ | rfl
      · obtain rfl : left = [] := hleft rfl
        rcases before with _ | ⟨_, before⟩
        · exact ⟨.nil, fun _ => rfl⟩
        · simp [sentence] at hr
      · rcases before with _ | ⟨_, _ | ⟨_, _ | ⟨_, before⟩⟩⟩
        · obtain ⟨rfl, _⟩ : ops.expr = n ∧ _ := by simpa [operation] using hr
          rw [List.append_nil]
          exact ⟨hw, fun he => absurd he.symm ops.start_ne⟩
        · simp [operation] at hr
        · simp only [operation, List.cons_append, List.nil_append, List.cons.injEq,
            Symbol.nonterminal.injEq] at hr
          obtain ⟨rfl, rfl, rfl, _⟩ := hr
          exact ⟨hw.more ht, fun he => absurd he.symm ops.start_ne⟩
        · simp [operation] at hr
      · rcases before with _ | ⟨_, before⟩
        · simp [single] at hr
        · simp [single] at hr

/-- A chain leads to an expression whatever expressions and operators are on the left. -/
theorem Waits.chain (h : ops.Waits π) : ops.grammar.Chain ops.start π ops.expr [] := by
  induction h with
  | nil =>
      have split : ops.sentence.rhs = [] ++ .nonterminal ops.expr :: [] := rfl
      exact .down .start (ops.mem_productions.mpr (.inl rfl)) split
  | @more π t _ ht ih =>
      have split : (ops.operation t).rhs =
        [.nonterminal ops.expr, .terminal t] ++ .nonterminal ops.expr :: [] := rfl
      exact .down ih (ops.mem_productions.mpr (.inr (.inl ⟨t, ht, rfl⟩))) split

/-- What a chain to an expression leaves to the right can begin with whatever an expression
can end before. -/
theorem Waits.exists_chain (h : ops.Waits π) {a : Lookahead T} (ha : ops.Ends a) :
    ∃ right, ∃ w : List T, ops.grammar.Chain ops.start π ops.expr right ∧
      ops.grammar.Derives right (w.map .terminal) ∧ w.head? = a := by
  cases a with
  | none => exact ⟨[], [], h.chain, .refl, rfl⟩
  | some t =>
      have operation : ops.operation t ∈ ops.grammar.productions :=
        ops.mem_productions.mpr (.inr (.inl ⟨t, ha t rfl, rfl⟩))
      have split : (ops.operation t).rhs =
        [] ++ .nonterminal ops.expr :: [.terminal t, .nonterminal ops.expr] := rfl
      have chain := Grammar.Chain.down h.chain operation split
      rw [List.append_nil] at chain
      have operand : ops.grammar.Derives [.nonterminal ops.expr] [.terminal ops.atom] :=
        .of_production (p := ops.single) (ops.mem_productions.mpr (.inr (.inr rfl)))
      exact ⟨_, [t, ops.atom], chain, operand.between [.terminal t] [], rfl⟩

end

/-! ## Items at the end of a path -/

/-- A production other than the first has been read. -/
inductive Completed [DecidableEq T] (ops : Operators T N V) : List (Symbol T N) → Nat → Prop
  | operation {π : List (Symbol T N)} {t : T} : Waits ops π → t ∈ ops.operators →
      Completed ops (π ++ [.nonterminal ops.expr, .terminal t, .nonterminal ops.expr])
        (ops.number t)
  | single {π : List (Symbol T N)} : Waits ops π →
      Completed ops (π ++ [.terminal ops.atom]) ops.singleNumber

theorem Waits.getLast?_ne (h : ops.Waits π) {s : Symbol T N}
    (hs : ∀ t ∈ ops.operators, s ≠ .terminal t) : π.getLast? ≠ some s := by
  intro he
  rcases h.getLast?_cases with rfl | ⟨t, ht, hl⟩
  · cases he
  · exact hs t ht (Option.some.inj (he.symm.trans hl))

section

variable [DecidableEq T]

theorem Completed.unique (h : ops.Completed γ p) {q : Nat} (h' : ops.Completed γ q) : p = q := by
  generalize hw : γ = δ at h'
  cases h with
  | operation hπ ht =>
      cases h' with
      | operation hπ' ht' =>
          have same := (List.append_inj' hw rfl).2
          simp only [List.cons.injEq, Symbol.terminal.injEq] at same
          rw [same.2.1]
      | single _ => simpa using congrArg List.getLast? hw
  | single _ =>
      cases h' with
      | operation _ _ => simpa using congrArg List.getLast? hw
      | single _ => rfl

theorem Completed.not_waits (h : ops.Completed γ p) : ¬ ops.Waits γ := by
  intro hw
  cases h with
  | operation _ _ => exact hw.getLast?_ne (s := .nonterminal ops.expr) (by simp) (by simp)
  | single _ =>
      refine hw.getLast?_ne (s := .terminal ops.atom) (fun t ht he => ?_) (by simp)
      cases he
      exact ops.atom_notMem ht

theorem not_completed_expr : ¬ ops.Completed [.nonterminal ops.expr] p := by
  intro h
  generalize hw : [Symbol.nonterminal ops.expr] = δ at h
  cases h with
  | operation _ _ => simpa using congrArg List.length hw
  | single _ => simpa using congrArg List.getLast? hw

end

variable [Ordered T] [Ordered N] {method : Method} {policy : Policy T} {a : Lookahead T} {i j : Nat}

/-- The automaton of the grammar. -/
abbrev outline (ops : Operators T N V) (method : Method) : Outline T N :=
  ops.grammar.outline method ops.start 0

/-- What that automaton has for a cell. -/
abbrev candidates (ops : Operators T N V) (method : Method) (policy : Policy T) (i : Nat)
    (a : Lookahead T) : Candidates :=
  (ops.outline method).candidates ops.grammar policy 0 i a

theorem starts (ops : Operators T N V) : ops.grammar.Starts ops.start 0 :=
  Grammar.starts_of_validate ops.validate_grammar

theorem lawful (ops : Operators T N V) (method : Method) :
    (ops.outline method).Lawful ops.grammar 0 :=
  Grammar.lawful_outline ops.starts method

/-- An item belongs to the first production at the beginning of a path, or to another one
behind expressions and operators. -/
theorem holds_cases (hγ : (ops.outline method).Spells γ i) (h : (ops.outline method).holds i p d) :
    (p = 0 ∧ γ = ops.sentence.rhs.take d) ∨
      (∃ t ∈ ops.operators, p = ops.number t ∧
        ∃ π, ops.Waits π ∧ γ = π ++ (ops.operation t).rhs.take d) ∨
      p = ops.singleNumber ∧ ∃ π, ops.Waits π ∧ γ = π ++ ops.single.rhs.take d := by
  obtain ⟨right, production, left, hp, _, hc, rfl⟩ := Grammar.exists_valid ops.starts hγ h
  obtain ⟨hw, hleft⟩ := waits_of_chain hc
  rcases getElem?_cases hp with ⟨rfl, rfl⟩ | ⟨t, ht, rfl, rfl⟩ | ⟨rfl, rfl⟩
  · exact .inl ⟨rfl, by rw [hleft rfl, List.nil_append]⟩
  · exact .inr (.inl ⟨t, ht, rfl, left, hw, rfl⟩)
  · exact .inr (.inr ⟨rfl, left, hw, rfl⟩)

/-- An operand goes on where one is awaited, and an operator behind an expression. -/
theorem next_cases (hγ : (ops.outline method).Spells γ i)
    (hn : (ops.outline method).next? i (.terminal t) = some j) :
    (t = ops.atom ∧ ops.Waits γ) ∨
      t ∈ ops.operators ∧ γ.getLast? = some (.nonterminal ops.expr) := by
  obtain ⟨p, d, hi, hs⟩ := (ops.lawful method).exists_holds_of_next hn
  rcases holds_cases hγ hi with ⟨rfl, _⟩ | ⟨u, hu, rfl, π, _, rfl⟩ | ⟨rfl, π, hπ, rfl⟩
  · rw [Grammar.rhs_of_getElem? ops.getElem?_sentence] at hs
    rcases d with _ | d
    · cases hs
    · cases hs
  · rw [Grammar.rhs_of_getElem? (getElem?_operation hu)] at hs
    rcases d with _ | _ | _ | d
    · cases hs
    · cases hs
      exact .inr ⟨hu, by simp [operation]⟩
    · cases hs
    · cases hs
  · rw [Grammar.rhs_of_getElem? ops.getElem?_single] at hs
    rcases d with _ | d
    · cases hs
      rw [List.take_zero, List.append_nil]
      exact .inl ⟨rfl, hπ⟩
    · cases hs

/-- What is read to the end is the first production or another one. -/
theorem completed_cases (hγ : (ops.outline method).Spells γ i)
    (h : (ops.outline method).holds i p (ops.grammar.rhs p).length) :
    (p = 0 ∧ γ = [.nonterminal ops.expr]) ∨ ops.Completed γ p := by
  rcases holds_cases hγ h with ⟨rfl, rfl⟩ | ⟨u, hu, rfl, π, hπ, rfl⟩ | ⟨rfl, π, hπ, rfl⟩
  · rw [Grammar.rhs_of_getElem? ops.getElem?_sentence, List.take_length]
    exact .inl ⟨rfl, rfl⟩
  · rw [Grammar.rhs_of_getElem? (getElem?_operation hu), List.take_length]
    exact .inr (.operation hπ hu)
  · rw [Grammar.rhs_of_getElem? ops.getElem?_single, List.take_length]
    exact .inr (.single hπ)

/-- Behind expressions and operators a path goes on over a right-hand side, and that is
expected before whatever an expression can end before. -/
theorem Waits.exists_spells (h : ops.Waits π) (method : Method) (ha : ops.Ends a) {p : Nat}
    {production : Production T N V} (hp : ops.grammar.productions[p]? = some production)
    (hl : production.lhs = ops.expr) {symbols rest : List (Symbol T N)}
    (hr : production.rhs = symbols ++ rest) :
    ∃ i, (ops.outline method).Spells (π ++ symbols) i ∧
      (ops.outline method).expects i p symbols.length a := by
  obtain ⟨right, w, hc, hw, rfl⟩ := h.exists_chain ha
  exact (ops.lawful method).exists_spells_production ops.starts hc hw hp hl hr

theorem Completed.exists_production (h : ops.Completed γ p) :
    ∃ π production, ops.Waits π ∧ ops.grammar.productions[p]? = some production ∧
      production.lhs = ops.expr ∧ γ = π ++ production.rhs := by
  cases h with
  | operation hπ ht => exact ⟨_, _, hπ, getElem?_operation ht, rfl, rfl⟩
  | single hπ => exact ⟨_, _, hπ, ops.getElem?_single, rfl, rfl⟩

theorem Completed.expects (h : ops.Completed γ p) (hγ : (ops.outline method).Spells γ i)
    (ha : ops.Ends a) : (ops.outline method).expects i p (ops.grammar.rhs p).length a := by
  obtain ⟨π, production, hπ, hp, hl, rfl⟩ := h.exists_production
  obtain ⟨j, hj, he⟩ := hπ.exists_spells method ha hp hl (List.append_nil _).symm
  rw [Grammar.rhs_of_getElem? hp, hγ.unique hj]
  exact he

/-- Where an operand is awaited there is a transition on it. -/
theorem Waits.exists_next_atom (h : ops.Waits π) (hγ : (ops.outline method).Spells π i) :
    ∃ j, (ops.outline method).next? i (.terminal ops.atom) = some j := by
  obtain ⟨j, hj, _⟩ := h.exists_spells method (a := none) nofun ops.getElem?_single rfl
    (List.append_nil _).symm
  exact ⟨j, hγ.next_eq hj⟩

/-- Behind an expression there is a transition on each operator. -/
theorem Waits.exists_next_operator (h : ops.Waits π)
    (hγ : (ops.outline method).Spells (π ++ [.nonterminal ops.expr]) i) (ht : t ∈ ops.operators) :
    ∃ j, (ops.outline method).next? i (.terminal t) = some j := by
  have split : (ops.operation t).rhs =
    [.nonterminal ops.expr, .terminal t] ++ [.nonterminal ops.expr] := rfl
  obtain ⟨j, hj, _⟩ := h.exists_spells method (a := none) nofun (getElem?_operation ht) rfl split
  rw [← List.singleton_append, ← List.append_assoc] at hj
  exact ⟨j, hγ.next_eq hj⟩

/-- The first production is completed where a path goes over an expression. -/
theorem expects_sentence (hγ : (ops.outline method).Spells [.nonterminal ops.expr] i) :
    (ops.outline method).expects i 0 (ops.grammar.rhs 0).length none := by
  refine (ops.lawful method).expects_whole ?_
  rwa [Grammar.rhs_of_getElem? ops.getElem?_sentence]

/-! ## Candidates -/

section

variable (hγ : (ops.outline method).Spells γ i)

include hγ

/-- Nothing is reduced where nothing is read to the end. -/
theorem reduces_eq_empty (h : ∀ p, ¬ ops.Completed γ p) :
    (ops.candidates method policy i a).reduces = ∅ := by
  refine Set.eq_empty_iff_forall_notMem.mpr fun p ⟨hne, he, _⟩ => ?_
  rcases completed_cases hγ ((ops.lawful method).holds_of_expects he) with ⟨rfl, _⟩ | hc
  · exact hne rfl
  · exact h p hc

/-- What is read to the end is reduced before whatever an expression can end before. -/
theorem reduces_eq_singleton (permits : ∀ p a, policy.reduceOn p a = true)
    (h : ops.Completed γ p) (ha : ops.Ends a) :
    (ops.candidates method policy i a).reduces = {p} := by
  refine Set.eq_singleton_iff_unique_mem.mpr ⟨⟨?_, h.expects hγ ha, permits p a⟩, ?_⟩
  · rintro rfl
    cases h
  · intro q ⟨hne, he, _⟩
    rcases completed_cases hγ ((ops.lawful method).holds_of_expects he) with ⟨rfl, _⟩ | hc
    · exact absurd rfl hne
    · exact hc.unique h

/-- The input is accepted at its end, when all of it is an expression. -/
theorem accept_iff : (ops.candidates method policy i a).accept ↔
    a = none ∧ γ = [.nonterminal ops.expr] := by
  constructor
  · intro ⟨ha, he⟩
    refine ⟨ha, ?_⟩
    rcases completed_cases hγ ((ops.lawful method).holds_of_expects he) with ⟨_, h⟩ | h
    · exact h
    · cases h
  · rintro ⟨rfl, rfl⟩
    exact ⟨rfl, expects_sentence hγ⟩

/-- Where a shift competes with a reduction, the terminal and the production are of
operators. -/
theorem competes_cases {t : T} {j p : Nat}
    (h : (ops.candidates method policy i a).Competes a t j p) :
    t ∈ ops.operators ∧ ∃ u ∈ ops.operators, p = ops.number u := by
  obtain ⟨rfl, hs, ⟨hne, he, _⟩, _⟩ := h
  rcases completed_cases hγ ((ops.lawful method).holds_of_expects he) with ⟨rfl, _⟩ | hc
  · exact absurd rfl hne
  · rcases next_cases hγ hs with ⟨_, hw⟩ | ⟨ht, hl⟩
    · exact absurd hw hc.not_waits
    · cases hc with
      | operation _ hu => exact ⟨ht, _, hu, rfl⟩
      | single _ => simp at hl

end

/-- Behind an operation the next operator competes with its reduction. -/
theorem exists_competes (permits : ∀ p a, policy.reduceOn p a = true) (hπ : ops.Waits π)
    (ht : t ∈ ops.operators) {u : T} (hu : u ∈ ops.operators)
    (hi : (ops.outline method).Spells
      (π ++ [.nonterminal ops.expr, .terminal t, .nonterminal ops.expr]) i) :
    ∃ j, (i, some u) ∈ (ops.outline method).scan ops.grammar ∧
      ¬ (ops.candidates method policy i (some u)).accept ∧
      (ops.candidates method policy i (some u)).Competes (some u) u j (ops.number t) := by
  have path : π ++ [.nonterminal ops.expr, .terminal t, .nonterminal ops.expr] =
      (π ++ [.nonterminal ops.expr, .terminal t]) ++ [.nonterminal ops.expr] := by simp
  obtain ⟨j, hn⟩ := (hπ.more ht).exists_next_operator (path ▸ hi) hu
  have shift : .shift j ∈ (ops.candidates method policy i (some u)).actions T :=
    Candidates.shift_mem_actions.mpr hn
  have ends : ops.Ends (some u) := by
    intro t h
    cases h
    exact hu
  refine ⟨j, (ops.lawful method).mem_scan_of_mem_actions shift, Outline.not_accept_some, rfl, hn,
    ?_⟩
  rw [reduces_eq_singleton hi permits (.operation hπ ht) ends]
  exact isLeast_singleton

/-- An operator and the production of an operator have the precedences of the operators. -/
theorem ranked {u : T} (ht : t ∈ ops.operators) (hu : u ∈ ops.operators) :
    ops.grammar.Ranked t (ops.number u) (ops.rank t) (ops.rank u) := by
  have terminal {t : T} (ht : t ∈ ops.operators) :
      ops.grammar.terminalPrecedence t = .ok (ops.rank t) := by
    rw [Grammar.terminalPrecedence, precedence_grammar, lookup_eq ht]
  refine ⟨terminal ht, ?_⟩
  rw [Grammar.rulePrecedence?, getElem?_operation hu, Option.map_some]
  exact congrArg some (terminal hu)

/-- No cell is a fault or recorded as a conflict. -/
theorem settled (ops : Operators T N V) (method : Method) (policy : Policy T) :
    (ops.outline method).Settled ops.grammar policy 0 := by
  intro (i, a) hm r h
  obtain ⟨γ, hγ⟩ := Grammar.exists_spells_outline (Outline.mem_scan.mp hm).1
  have unranked {t : T} {j p : Nat} {fault : GrammarError T N}
      (hc : (ops.candidates method policy i a).Competes a t j p)
      (hu : ops.grammar.Unranked t p fault) : False := by
    obtain ⟨ht, u, hu', rfl⟩ := competes_cases hγ hc
    obtain ⟨ofTerminal, ofProduction⟩ := ranked ht hu'
    cases hu with
    | terminal h => cases h.symm.trans ofTerminal
    | production _ h => cases h.symm.trans ofProduction
  cases h with
  | accept _ _ => exact ⟨_, rfl⟩
  | contested ha hp =>
      obtain ⟨rfl, rfl⟩ := (accept_iff hγ).mp ha
      rw [reduces_eq_empty hγ fun p => not_completed_expr] at hp
      exact absurd hp.1 (Set.notMem_empty _)
  | unexpected _ _ _ => exact ⟨_, rfl⟩
  | shift _ _ _ => exact ⟨_, rfl⟩
  | reduce _ _ _ => exact ⟨_, rfl⟩
  | tighter _ _ _ _ => exact ⟨_, rfl⟩
  | looser _ _ _ _ => exact ⟨_, rfl⟩
  | left _ _ _ _ _ => exact ⟨_, rfl⟩
  | right _ _ _ _ _ => exact ⟨_, rfl⟩
  | nonAssoc _ _ _ _ _ => exact ⟨_, rfl⟩
  | defaulted _ hc hu _ => exact (unranked hc hu).elim
  | unranked _ hc hu _ => exact (unranked hc hu).elim

/-! ## What the table does -/

section

variable {verdict : Nat → Lookahead T → Verdict T} {table : ParseTable T N}
  (hr : (ops.outline method).Resolved ops.grammar policy 0 verdict table)

include hr

/-- What is not read to the end is gone on with. -/
theorem action_shift (hi : (ops.outline method).Spells γ i) (hγ : ∀ p, ¬ ops.Completed γ p)
    (hn : (ops.outline method).next? i (.terminal t) = some j) :
    table.action? i (some t) = some (.shift j) :=
  hr.action_shift (ops.lawful method) hn (reduces_eq_empty hi hγ)

/-- Where an operand is awaited it is shifted. -/
theorem action_operand (hπ : ops.Waits π) (hi : (ops.outline method).Spells π i) :
    ∃ j, table.action? i (some ops.atom) = some (.shift j) := by
  obtain ⟨j, hn⟩ := hπ.exists_next_atom hi
  exact ⟨j, action_shift hr hi (fun p hc => hc.not_waits hπ) hn⟩

/-- The first operator is shifted. -/
theorem action_first (hi : (ops.outline method).Spells [.nonterminal ops.expr] i)
    (ht : t ∈ ops.operators) : ∃ j, table.action? i (some t) = some (.shift j) := by
  obtain ⟨j, hn⟩ := Waits.nil.exists_next_operator hi ht
  exact ⟨j, action_shift hr hi (fun p => not_completed_expr) hn⟩

/-- An expression that makes up all of the input is accepted. -/
theorem action_accept (hi : (ops.outline method).Spells [.nonterminal ops.expr] i) :
    table.action? i none = some .accept :=
  hr.action_accept (ops.lawful method) ((accept_iff hi).mpr ⟨rfl, rfl⟩)
    (reduces_eq_empty hi fun _ => not_completed_expr)

variable (permits : ∀ p a, policy.reduceOn p a = true)

include permits

/-- What is read to the end is reduced, if nothing is shifted. -/
theorem action_completed (hc : ops.Completed γ p) (hi : (ops.outline method).Spells γ i)
    (ha : ops.Ends a) (hs : (ops.candidates method policy i a).shift? = none) :
    table.action? i a = some (.reduce p) := by
  refine hr.action_reduce (ops.lawful method) ?_ hs (reduces_eq_singleton hi permits hc ha)
  intro h
  obtain ⟨_, rfl⟩ := (accept_iff hi).mp h
  exact not_completed_expr hc

/-- An operand that has been shifted becomes an expression. -/
theorem action_single (hπ : ops.Waits π)
    (hi : (ops.outline method).Spells (π ++ [.terminal ops.atom]) i) (ha : ops.Ends a) :
    table.action? i a = some (.reduce ops.singleNumber) := by
  refine action_completed hr permits (.single hπ) hi ha ?_
  cases a with
  | none => rfl
  | some t =>
      refine Option.eq_none_iff_forall_ne_some.mpr fun j hn => ?_
      rcases next_cases hi hn with ⟨_, hw⟩ | ⟨_, hl⟩
      · exact (Completed.single hπ).not_waits hw
      · simp at hl

/-- At the end of the input an operation is reduced. -/
theorem action_last (hπ : ops.Waits π) (ht : t ∈ ops.operators)
    (hi : (ops.outline method).Spells
      (π ++ [.nonterminal ops.expr, .terminal t, .nonterminal ops.expr]) i) :
    table.action? i none = some (.reduce (ops.number t)) :=
  action_completed hr permits (.operation hπ ht) hi nofun rfl

section

variable {u : T} (hπ : ops.Waits π) (ht : t ∈ ops.operators) (hu : u ∈ ops.operators)
  (hi : (ops.outline method).Spells
    (π ++ [.nonterminal ops.expr, .terminal t, .nonterminal ops.expr]) i)

include hπ ht hu hi

/-- An operator that belongs to the right operand of the one before is shifted. -/
theorem action_right (h : ops.AdmitsRight t u) :
    ∃ j, table.action? i (some u) = some (.shift j) := by
  obtain ⟨j, hm, accept, competes⟩ := exists_competes permits hπ ht hu hi
  have settles : (ops.candidates method policy i (some u)).Settles ops.grammar policy i (some u)
      (.ok (.action (.shift j))) := by
    rcases h with h | ⟨h, hs⟩
    · exact .tighter accept competes (ranked hu ht) h
    · exact .right accept competes (ranked hu ht) h.symm ((assoc_eq ht hu h).symm.trans hs)
  exact ⟨j, hr.action_of_settles (ops.lawful method) hm settles⟩

/-- An operation that belongs to the left operand of the operator behind it is reduced. -/
theorem action_left (h : ops.AdmitsLeft u t) :
    table.action? i (some u) = some (.reduce (ops.number t)) := by
  obtain ⟨j, hm, accept, competes⟩ := exists_competes permits hπ ht hu hi
  have settles : (ops.candidates method policy i (some u)).Settles ops.grammar policy i (some u)
      (.ok (.action (.reduce (ops.number t)))) := by
    rcases h with h | ⟨h, hs⟩
    · exact .looser accept competes (ranked hu ht) h
    · exact .left accept competes (ranked hu ht) h hs
  exact hr.action_of_settles (ops.lawful method) hm settles

/-- Operators that tie are an error. -/
theorem action_tie (h : ops.Ties t u) : ∃ conflicts, table.action? i (some u) =
    some (.error "non-associative operator used associatively" conflicts (some u)) := by
  obtain ⟨j, hm, accept, competes⟩ := exists_competes permits hπ ht hu hi
  exact ⟨_, hr.action_of_settles (ops.lawful method) hm (.nonAssoc accept competes (ranked hu ht)
    h.1.symm ((assoc_eq ht hu h.1).symm.trans h.2))⟩

end

end

/-- What the table may do where a path leads. -/
inductive Allows (ops : Operators T N V) (γ : List (Symbol T N)) (a : Lookahead T) :
    Action T → Prop
  | operand {j : Nat} : a = some ops.atom → ops.Waits γ → Allows ops γ a (.shift j)
  | operator {t : T} {j : Nat} : a = some t → t ∈ ops.operators →
      γ.getLast? = some (.nonterminal ops.expr) → Allows ops γ a (.shift j)
  | reduce {p : Nat} : ops.Completed γ p → Allows ops γ a (.reduce p)
  | accept : a = none → γ = [.nonterminal ops.expr] → Allows ops γ a .accept
  | error {message : String} {conflicts : List (Action T)} {ahead : Lookahead T} :
      Allows ops γ a (.error message conflicts ahead)

namespace Allows

variable {action : Action T}

omit [Ordered N] in
/-- Where an operand is awaited nothing else is taken. -/
theorem move?_of_waits (h : ops.Allows γ a action) (hγ : ops.Waits γ) (ha : a ≠ some ops.atom) :
    action.move? = none := by
  have last := hγ.getLast?_ne (s := .nonterminal ops.expr) (by simp)
  cases h with
  | operand h _ => exact absurd h ha
  | operator _ _ h => exact absurd h last
  | reduce h => exact absurd hγ h.not_waits
  | accept _ h => exact absurd (by rw [h, List.getLast?_singleton]) last
  | error => rfl

omit [Ordered N] in
/-- Behind an operand there is nothing to do but to reduce it. -/
theorem move?_of_operand (h : ops.Allows γ a action) (hγ : ops.Completed γ ops.singleNumber)
    (hl : γ.getLast? = some (.terminal ops.atom)) (ha : action ≠ .reduce ops.singleNumber) :
    action.move? = none := by
  cases h with
  | operand _ h => exact absurd h hγ.not_waits
  | operator _ _ h => cases hl.symm.trans h
  | reduce h => exact absurd (congrArg _ (h.unique hγ)) ha
  | accept _ h =>
      rw [h] at hl
      cases hl
  | error => rfl

omit [Ordered N] in
/-- Behind an expression a token that is no operator is not taken. -/
theorem move?_of_notMem (h : ops.Allows γ (some t) action) (ht : t ∉ ops.operators)
    (hl : γ.getLast? = some (.nonterminal ops.expr))
    (ha : ∀ p, ops.Completed γ p → action ≠ .reduce p) : action.move? = none := by
  cases h with
  | operand _ h => exact absurd hl (h.getLast?_ne (by simp))
  | operator h h' _ =>
      cases h
      exact absurd h' ht
  | reduce h => exact absurd rfl (ha _ h)
  | accept h _ => cases h
  | error => rfl

end Allows

theorem allows_of_action {table : ParseTable T N}
    (hd : (ops.outline method).Drives ops.grammar 0 table)
    (hi : (ops.outline method).Spells γ i) {action : Action T}
    (ha : table.action? i a = some action) : ops.Allows γ a action := by
  cases action with
  | shift j =>
      obtain ⟨t, rfl, hn⟩ := hd.shift ha
      rcases next_cases hi hn with ⟨rfl, hw⟩ | ⟨ht, hl⟩
      · exact .operand rfl hw
      · exact .operator rfl ht hl
  | reduce p =>
      obtain ⟨hne, he⟩ := hd.reduce ha
      rcases completed_cases hi ((ops.lawful method).holds_of_expects he) with ⟨rfl, _⟩ | hc
      · exact absurd rfl hne
      · exact .reduce hc
  | accept =>
      obtain ⟨rfl, he⟩ := hd.accept ha
      rcases completed_cases hi ((ops.lawful method).holds_of_expects he) with ⟨_, h⟩ | hc
      · exact .accept rfl h
      · cases hc
  | error _ _ _ => exact .error

end Operators

end BottomUp
