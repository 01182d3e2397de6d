import BottomUp.Proofs.Resolution

/-!
# Tables that drive a parser

A parser reads nothing of a table but its actions and gotos and the lengths of productions.
What it may rely on when the table is a resolution is put together here
(`Outline.Drives`): a shift or goto is a transition, a reduction completes an item, and the
input is accepted only at its end.  Nothing depends on how conflicts were settled.

All numbers in such a table are in range, those kept in error actions and in the record of
conflicts as well (`Resolved.inRange`).
-/

namespace BottomUp

variable {T N V : Type} [Ordered T] [Ordered N]

/-! ## What a parser relies on -/

/-- The messages that a settled cell can bring. -/
def Action.reports : List String :=
  ["unexpected token", "unexpected end of input", "non-associative operator used associatively"]

/-- The table does what an automaton with a start production allows. -/
structure Outline.Drives (o : Outline T N) (g : Grammar T N V) (start : Nat)
    (table : ParseTable T N) : Prop where
  start_eq : table.start = 0
  startProduction : table.startProduction = start
  productions : table.productions = g.productions.map fun p => ⟨p.lhs, p.rhs.length⟩
  goto (i : Nat) (n : N) : table.goto? i n = o.next? i (.nonterminal n)
  shift {i j : Nat} {a : Lookahead T} : table.action? i a = some (.shift j) →
    ∃ t, a = some t ∧ o.next? i (.terminal t) = some j
  reduce {i p : Nat} {a : Lookahead T} : table.action? i a = some (.reduce p) →
    p ≠ start ∧ o.expects i p (g.rhs p).length a
  accept {i : Nat} {a : Lookahead T} : table.action? i a = some .accept →
    a = none ∧ o.expects i start (g.rhs start).length none
  error {i : Nat} {a b : Lookahead T} {message : String} {conflicts : List (Action T)} :
    table.action? i a = some (.error message conflicts b) → message ∈ Action.reports
  silent {i : Nat} {a : Lookahead T} : i < o.size → table.action? i a = none →
    ∃ t, a = some t ∧ t ∉ g.terminals

namespace Outline.Resolved

variable {g : Grammar T N V} {policy : Policy T} {start : Nat} {o : Outline T N}
  {verdict : Nat → Lookahead T → Verdict T} {table : ParseTable T N}

/-- An action of a resolution is a candidate or brings a report. -/
theorem candidate_or_error (h : o.Resolved g policy start verdict table) {i : Nat}
    {a : Lookahead T} {action : Action T} (ha : table.action? i a = some action) :
    action ∈ (o.candidates g policy start i a).actions T ∨
      ∃ message conflicts, action = .error message conflicts a ∧ message ∈ Action.reports ∧
        ∀ c ∈ conflicts, c ∈ (o.candidates g policy start i a).actions T := by
  by_cases hm : (i, a) ∈ o.scan g
  · obtain rfl : (verdict i a).toAction = action := Option.some.inj ((h.action hm).symm.trans ha)
    rcases (h.settles hm).action_cases with hc | ⟨hu, _⟩ | ⟨j, p, hj, hp, he⟩
    · exact .inl hc
    · rw [hu]
      refine .inr ⟨_, [], rfl, ?_, by simp⟩
      cases a with
      | none => simp [Action.reports]
      | some t => simp [Action.reports]
    · rw [he]
      refine .inr ⟨_, _, rfl, by simp [Action.reports], ?_⟩
      intro c hc
      rcases List.mem_cons.mp hc with rfl | hc
      · exact hj
      · rw [List.mem_singleton.mp hc]
        exact hp
  · rw [h.silent hm] at ha
    cases ha

/-- A resolution does what its automaton allows. -/
theorem drives (h : o.Resolved g policy start verdict table) : o.Drives g start table where
  start_eq := h.start_eq
  startProduction := h.startProduction
  productions := h.productions
  goto := h.goto
  shift := by
    intro i j a ha
    rcases h.candidate_or_error ha with hc | ⟨_, _, he, _⟩
    · exact Option.bind_eq_some_iff.mp (Candidates.shift_mem_actions.mp hc)
    · cases he
  reduce := by
    intro i p a ha
    rcases h.candidate_or_error ha with hc | ⟨_, _, he, _⟩
    · obtain ⟨hp, he, _⟩ := Candidates.reduce_mem_actions.mp hc
      exact ⟨hp, he⟩
    · cases he
  accept := by
    intro i a ha
    rcases h.candidate_or_error ha with hc | ⟨_, _, he, _⟩
    · exact Candidates.accept_mem_actions.mp hc
    · cases he
  error := by
    intro i a b message conflicts ha
    rcases h.candidate_or_error ha with hc | ⟨_, _, he, hm, _⟩
    · exact absurd hc Candidates.error_not_mem_actions
    · cases he
      exact hm
  silent := by
    intro i a hi ha
    have hm : (i, a) ∉ o.scan g := fun hm => by
      rw [h.action hm] at ha
      cases ha
    cases a with
    | none => exact absurd (mem_scan.mpr ⟨hi, Grammar.none_mem_lookaheads⟩) hm
    | some t =>
        refine ⟨t, rfl, fun ht => hm (mem_scan.mpr ⟨hi, Grammar.some_mem_lookaheads.mpr ht⟩)⟩

end Outline.Resolved

/-! ## Numbers in range -/

/-- The states and productions that an action names exist. -/
inductive Action.InRange (states productions : Nat) : Action T → Prop
  /-- A shift into a state. -/
  | shift {j : Nat} : j < states → InRange states productions (.shift j)
  /-- The reduction of a production. -/
  | reduce {p : Nat} : p < productions → InRange states productions (.reduce p)
  /-- Acceptance. -/
  | accept : InRange states productions .accept
  /-- An error that keeps such actions. -/
  | error {message : String} {conflicts : List (Action T)} {ahead : Lookahead T} :
      (∀ c ∈ conflicts, InRange states productions c) →
      InRange states productions (.error message conflicts ahead)

/-- The states and productions that a table names exist. -/
structure ParseTable.InRange (table : ParseTable T N) : Prop where
  start : table.start < table.rows.length
  startProduction : table.startProduction < table.productions.length
  action {i : Nat} {a : Lookahead T} {action : Action T} : table.action? i a = some action →
    action.InRange table.rows.length table.productions.length
  goto {i j : Nat} {n : N} : table.goto? i n = some j → j < table.rows.length
  conflicts {c : Conflict T} : c ∈ table.conflicts →
    c.state < table.rows.length ∧ c.shift < table.rows.length ∧
      c.reduce < table.productions.length

namespace Outline

variable {g : Grammar T N V} {policy : Policy T} {start : Nat} {o : Outline T N}
  {verdict : Nat → Lookahead T → Verdict T} {table : ParseTable T N}

theorem Lawful.lt_of_holds (h : o.Lawful g start) {i p d : Nat} (hi : o.holds i p d) :
    p < g.productions.length := by
  obtain ⟨_, hp, _⟩ := h.exists_production hi
  exact (List.getElem?_eq_some_iff.mp hp).1

/-- Candidates are in range. -/
theorem Lawful.inRange_of_mem_actions (h : o.Lawful g start) {i : Nat} {a : Lookahead T}
    {action : Action T} (ha : action ∈ (o.candidates g policy start i a).actions T) :
    action.InRange o.size g.productions.length := by
  cases action with
  | shift j =>
      obtain ⟨t, _, hn⟩ := Option.bind_eq_some_iff.mp (Candidates.shift_mem_actions.mp ha)
      exact .shift (h.entered hn).1
  | reduce p =>
      obtain ⟨_, he, _⟩ := Candidates.reduce_mem_actions.mp ha
      exact .reduce (h.lt_of_holds (h.holds_of_expects he))
  | accept => exact .accept
  | error message conflicts ahead => exact absurd ha Candidates.error_not_mem_actions

omit [Ordered N] in
/-- A conflict that is recorded is between candidates of its cell. -/
theorem conflict_of_settles {i : Nat} {a : Lookahead T} {v : Verdict T} {c : Conflict T}
    (h : (o.candidates g policy start i a).Settles g policy i a (.ok v))
    (hc : v.conflict? = some c) :
    c.state = i ∧ .shift c.shift ∈ (o.candidates g policy start i a).actions T ∧
      .reduce c.reduce ∈ (o.candidates g policy start i a).actions T := by
  cases v with
  | action _ => cases hc
  | defaulted conflict =>
      cases hc
      cases h with
      | defaulted _ hc _ _ =>
          exact ⟨rfl, Candidates.shift_mem_actions.mpr hc.shift,
            Candidates.reduce_mem_actions.mpr hc.reduce.1⟩

/-- All numbers in a resolution are in range. -/
theorem Resolved.inRange (h : o.Resolved g policy start verdict table) (ho : o.Lawful g start) :
    table.InRange := by
  have productions : table.productions.length = g.productions.length := by
    rw [h.productions, List.length_map]
  have zero := ho.holds_of_expects ho.expects_zero
  constructor
  · rw [h.start_eq, h.size]
    exact ho.lt_size zero
  · rw [h.startProduction, productions]
    exact ho.lt_of_holds zero
  · intro i a action ha
    rw [h.size, productions]
    rcases h.candidate_or_error ha with hc | ⟨message, conflicts, rfl, _, hc⟩
    · exact ho.inRange_of_mem_actions hc
    · exact .error fun c hm => ho.inRange_of_mem_actions (hc c hm)
  · intro i j n hn
    rw [h.goto] at hn
    rw [h.size]
    exact (ho.entered hn).1
  · intro c hc
    rw [h.conflicts] at hc
    obtain ⟨⟨i, a⟩, hm, hc⟩ := List.mem_filterMap.mp hc
    obtain ⟨rfl, hs, hr⟩ := conflict_of_settles (h.settles hm) hc
    rw [h.size, productions]
    cases ho.inRange_of_mem_actions hs with
    | shift hs =>
        cases ho.inRange_of_mem_actions hr with
        | reduce hr => exact ⟨(mem_scan.mp hm).1, hs, hr⟩

end Outline

end BottomUp
