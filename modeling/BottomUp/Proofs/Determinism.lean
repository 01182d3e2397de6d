import BottomUp.Proofs.Resolution
import Mathlib.Data.Set.Subsingleton

/-!
# Deterministic automata

An automaton is deterministic if no cell has two candidates.  Then every cell is settled by
an action, so there is a table and no conflict is recorded (`exists_table_of_settled`), and
the table does whatever is a candidate (`Resolved.action_eq`).

Whether an automaton is deterministic can be seen from its draft, because the cells of the
draft hold just the candidates (`deterministic_of_isDeterministic`).
-/

namespace BottomUp

variable {T N V Λ : Type} [Ordered T] [Ordered N] [Ordered Λ]

/-! ## Single candidates -/

namespace Candidates

variable {g : Grammar T N V} {policy : Policy T} {i : Nat} {a : Lookahead T} {c : Candidates}

omit [Ordered N] in
/-- A single candidate is taken. -/
theorem Settles.eq_action (hs : (c.actions T).Subsingleton) {v : Verdict T}
    (h : c.Settles g policy i a (.ok v)) {action : Action T} (ha : action ∈ c.actions T) :
    v.toAction = action := by
  rcases h.action_cases with hv | ⟨_, he⟩ | ⟨j, p, hj, hp, _⟩
  · exact hs hv ha
  · rw [he] at ha
    exact absurd ha (Set.notMem_empty action)
  · cases hs hj hp

omit [Ordered N] in
/-- Without a second candidate nothing fails and nothing is recorded. -/
theorem Settles.exists_action (hs : (c.actions T).Subsingleton)
    {r : Except (CompileError T N) (Verdict T)} (h : c.Settles g policy i a r) :
    ∃ action, r = .ok (.action action) := by
  have competes {t : T} {j p : Nat} (hc : c.Competes a t j p) : False := by
    cases hs (shift_mem_actions.mpr hc.shift) (reduce_mem_actions.mpr hc.reduce.1)
  cases h with
  | accept _ _ => exact ⟨_, rfl⟩
  | contested ha hp => cases hs (accept_mem_actions.mpr ha) (reduce_mem_actions.mpr hp.1)
  | unexpected _ _ _ => exact ⟨_, rfl⟩
  | shift _ _ _ => exact ⟨_, rfl⟩
  | reduce _ _ _ => exact ⟨_, rfl⟩
  | tighter _ hc _ _ => exact (competes hc).elim
  | looser _ hc _ _ => exact (competes hc).elim
  | left _ hc _ _ _ => exact (competes hc).elim
  | right _ hc _ _ _ => exact (competes hc).elim
  | nonAssoc _ hc _ _ _ => exact (competes hc).elim
  | defaulted _ hc _ _ => exact (competes hc).elim
  | unranked _ hc _ _ => exact (competes hc).elim

end Candidates

/-! ## Deterministic automata -/

namespace Outline

/-- No cell has two candidates. -/
def Deterministic (o : Outline T N) (g : Grammar T N V) (policy : Policy T) (start : Nat) : Prop :=
  ∀ i a, ((o.candidates g policy start i a).actions T).Subsingleton

variable {g : Grammar T N V} {policy : Policy T} {start : Nat} {o : Outline T N}
  {verdict : Nat → Lookahead T → Verdict T} {table : ParseTable T N}

/-- Every cell of the scan is settled by an action, without a fault or a record. -/
def Settled (o : Outline T N) (g : Grammar T N V) (policy : Policy T) (start : Nat) : Prop :=
  ∀ cell ∈ o.scan g, ∀ r,
    (o.candidates g policy start cell.1 cell.2).Settles g policy cell.1 cell.2 r →
      ∃ action, r = .ok (.action action)

omit [Ordered N] in
theorem Deterministic.settled (h : o.Deterministic g policy start) :
    o.Settled g policy start :=
  fun _ _ _ hs => hs.exists_action (h _ _)

omit [Ordered N] in
theorem Fails.exists_settles {e : CompileError T N} {cells : List (Nat × Lookahead T)}
    (h : o.Fails g policy start e cells) : ∃ cell ∈ cells,
      (o.candidates g policy start cell.1 cell.2).Settles g policy cell.1 cell.2 (.error e) := by
  induction h with
  | here hs => exact ⟨_, List.mem_cons_self, hs⟩
  | later _ _ ih =>
      obtain ⟨cell, hm, hs⟩ := ih
      exact ⟨cell, List.mem_cons_of_mem _ hm, hs⟩

theorem Resolved.conflicts_eq_nil (hr : o.Resolved g policy start verdict table)
    (h : o.Settled g policy start) : table.conflicts = [] := by
  rw [hr.conflicts, List.filterMap_eq_nil_iff]
  intro (i, a) hm
  obtain ⟨action, hv⟩ := h _ hm _ (hr.settles hm)
  show (verdict i a).conflict? = none
  rw [Except.ok.inj hv]
  rfl

/-- Candidates are for cells of the scan. -/
theorem Lawful.mem_scan_of_mem_actions (ho : o.Lawful g start) {i : Nat} {a : Lookahead T}
    {action : Action T} (ha : action ∈ (o.candidates g policy start i a).actions T) :
    (i, a) ∈ o.scan g := by
  have expected {p d : Nat} (he : o.expects i p d a) : (i, a) ∈ o.scan g := by
    refine mem_scan.mpr ⟨ho.lt_size (ho.holds_of_expects he), ?_⟩
    cases a with
    | none => exact Grammar.none_mem_lookaheads
    | some t => exact Grammar.some_mem_lookaheads.mpr (ho.mem_terminals he)
  cases action with
  | shift j =>
      obtain ⟨t, rfl, hn⟩ := Option.bind_eq_some_iff.mp (Candidates.shift_mem_actions.mp ha)
      refine mem_scan.mpr ⟨ho.lt_of_next hn, ?_⟩
      exact Grammar.some_mem_lookaheads.mpr (ho.mem_terminals_of_next hn)
  | reduce p => exact expected (Candidates.reduce_mem_actions.mp ha).2.1
  | accept =>
      obtain ⟨rfl, he⟩ := Candidates.accept_mem_actions.mp ha
      exact expected he
  | error message conflicts ahead => exact absurd ha Candidates.error_not_mem_actions

/-- The table of a deterministic automaton does what is a candidate. -/
theorem Resolved.action_eq (hr : o.Resolved g policy start verdict table) (ho : o.Lawful g start)
    (h : o.Deterministic g policy start) {i : Nat} {a : Lookahead T} {action : Action T}
    (ha : action ∈ (o.candidates g policy start i a).actions T) :
    table.action? i a = some action := by
  have hm := ho.mem_scan_of_mem_actions ha
  rw [hr.action hm, (hr.settles hm).eq_action (h i a) ha]

end Outline

namespace Grammar

variable {g : Grammar T N V} {start : N} {p : Nat} {method : Method} {policy : Policy T}

/-- If the automaton is settled by actions there is a table without conflicts. -/
theorem exists_table_of_settled (hv : g.validate start = .ok p)
    (h : (g.outline method start p).Settled g policy p) :
    ∃ table verdict, (g.compile method start policy).table = .ok table ∧
      (g.outline method start p).Resolved g policy p verdict table ∧ table.conflicts = [] := by
  rcases resolved_or_fails hv method policy with ⟨table, verdict, ht, hr⟩ | ⟨e, _, hf⟩
  · exact ⟨table, verdict, ht, hr, hr.conflicts_eq_nil h⟩
  · obtain ⟨cell, hm, hs⟩ := hf.exists_settles
    obtain ⟨action, he⟩ := h cell hm _ hs
    cases he

/-- A grammar with a deterministic automaton has a table without conflicts. -/
theorem exists_table_of_deterministic (hv : g.validate start = .ok p)
    (h : (g.outline method start p).Deterministic g policy p) :
    ∃ table verdict, (g.compile method start policy).table = .ok table ∧
      (g.outline method start p).Resolved g policy p verdict table ∧ table.conflicts = [] :=
  exists_table_of_settled hv h.settled

end Grammar

/-! ## Deciding it -/

/-- The actions that a cell is offered. -/
def Cell.actions (T : Type) (cell : Cell) : List (Action T) :=
  cell.shift?.toList.map .shift ++ cell.reduces.toList.map .reduce ++
    if cell.accept then [.accept] else []

omit [Ordered T] in
theorem Cell.Offers.mem_actions {c : Candidates} {cell : Cell} (h : cell.Offers c)
    {action : Action T} : action ∈ cell.actions T ↔ action ∈ c.actions T := by
  rw [actions]
  cases action with
  | shift j => simp [h.shift]
  | reduce p => simp [← h.reduces]
  | accept => simp [h.accept]
  | error message conflicts ahead => simp

omit [Ordered T] in
theorem Cell.Offers.subsingleton {c : Candidates} {cell : Cell} (h : cell.Offers c)
    (hs : (cell.actions T).length ≤ 1) : (c.actions T).Subsingleton := by
  intro x hx y hy
  rw [← h.mem_actions] at hx hy
  obtain ⟨i, hi, rfl⟩ := List.mem_iff_getElem.mp hx
  obtain ⟨j, hj, rfl⟩ := List.mem_iff_getElem.mp hy
  have : i = j := by omega
  subst this
  rfl

/-- Is at most one action offered for each cell of the draft? -/
def Draft.isDeterministic (d : Draft T N V) : Bool :=
  d.sites.all fun site => (site.cell.actions T).length ≤ 1

theorem Draft.Within.length_actions_le {d : Draft T N V} {o : Outline T N} (h : d.Within o)
    (hd : d.isDeterministic = true) {i : Nat} {a : Lookahead T} (hm : (i, a) ∈ o.scan d.grammar) :
    ((d.cell i a).actions T).length ≤ 1 := by
  cases hc : d.cell? i a with
  | none =>
      rw [cell_eq, hc]
      exact Nat.zero_le 1
  | some cell =>
      have site : ⟨i, a, cell⟩ ∈ d.sites := by
        rw [h.sites_eq]
        exact List.mem_filterMap.mpr ⟨(i, a), hm, congrArg (Option.map _) hc⟩
      rw [cell_of_cell? hc]
      exact of_decide_eq_true (List.all_eq_true.mp hd _ site)

namespace Machine

variable {machine : Machine T N Λ} {g : Grammar T N V} {aheads : Item Λ → List (Lookahead T)}
  {start : Nat} {policy : Policy T}

/-- Is at most one action offered for each cell of the draft of the automaton? -/
def isDeterministic (machine : Machine T N Λ) (g : Grammar T N V) (policy : Policy T)
    (start : Nat) (aheads : Item Λ → List (Lookahead T)) : Bool :=
  match machine.draft g policy start aheads with
  | .ok d => d.isDeterministic
  | .error _ => false

theorem deterministic_of_isDeterministic (ho : (machine.outline aheads).Lawful g start)
    (h : machine.isDeterministic g policy start aheads = true) :
    (machine.outline aheads).Deterministic g policy start := by
  obtain ⟨d, hd, holds⟩ := machine.exists_draft g policy start aheads
  rw [isDeterministic, hd] at h
  have within := within_of_holds ho holds
  intro i a x hx
  have hm := ho.mem_scan_of_mem_actions hx
  rw [← holds.grammar_eq] at hm
  exact (offers_of_holds ho (holds.cell i a)).subsingleton (within.length_actions_le h hm) hx

end Machine

namespace Grammar

variable {g : Grammar T N V} {start : N} {p : Nat}

/-- Is the automaton that a method builds from a start production deterministic? -/
def isDeterministic (g : Grammar T N V) (method : Method) (start : N) (policy : Policy T)
    (p : Nat) : Bool :=
  match method with
  | .slr => (Machine.ofStart (.lr0 g) p).isDeterministic g policy p (g.followers (.of g start))
  | .lr1 => (Machine.ofStart (.lr1 g) p).isDeterministic g policy p fun item => [item.ahead]

theorem deterministic_of_isDeterministic (hv : g.validate start = .ok p) {method : Method}
    {policy : Policy T} (h : g.isDeterministic method start policy p = true) :
    (g.outline method start p).Deterministic g policy p := by
  have ho := lawful_outline (starts_of_validate hv) method
  cases method with
  | slr => exact Machine.deterministic_of_isDeterministic ho h
  | lr1 => exact Machine.deterministic_of_isDeterministic ho h

end Grammar

end BottomUp
