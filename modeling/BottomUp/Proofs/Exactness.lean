import BottomUp.Proofs.Determinism

/-!
# Compilation is exact

The candidates of a cell are settled in one way only (`Candidates.Settles.unique`), so
there is one resolution of the candidates of an automaton (`Outline.Resolved.unique`), and
one first cell that cannot be settled (`Outline.Fails.unique`), but not both.  What a
grammar compiles to is thereby fixed by its automaton (`compile_exact`): it is the
resolution if there is one, and otherwise the error of that cell.
-/

namespace BottomUp

variable {T N V : Type} [Ordered T] [Ordered N]

namespace Candidates

variable {g : Grammar T N V} {policy : Policy T} {i : Nat} {a : Lookahead T} {c : Candidates}

open Classical in
omit [Ordered T] [Ordered N] in
/-- Some cell is offered the candidates, because only productions of the grammar are
reduced. -/
theorem Fit.exists_cell (h : c.Fit g a) : ∃ cell : Cell, cell.Offers c := by
  let known := (List.range g.productions.length).filter fun p => p ∈ c.reduces
  refine ⟨⟨c.shift?, .ofList known, decide c.accept⟩, rfl, Set.ext fun p => ?_, by simp⟩
  have lt (hp : p ∈ c.reduces) : p < g.productions.length := by
    obtain ⟨_, hg⟩ := h.reduces hp
    exact (List.getElem?_eq_some_iff.mp hg).1
  simp only [Set.mem_ofPred_eq, SortedSet.mem_ofList, known, List.mem_filter, List.mem_range,
    decide_eq_true_eq]
  exact ⟨And.right, fun hp => ⟨lt hp, hp⟩⟩

/-- The candidates of a cell are settled in one way only. -/
theorem Settles.unique {r r' : Except (CompileError T N) (Verdict T)} (hf : c.Fit g a)
    (h : c.Settles g policy i a r) (h' : c.Settles g policy i a r') : r = r' := by
  obtain ⟨cell, ho⟩ := hf.exists_cell
  have settle : ∀ {r}, c.Settles g policy i a r → (Draft.blank g 0 0).settle policy i a cell = r :=
    fun h => Draft.settle_eq_of_settles ho hf h
  rw [← settle h, settle h']

end Candidates

/-- Rows with the same actions and gotos are equal. -/
theorem Row.ext_get? {row row' : Row T N} (he : row.atEnd = row'.atEnd)
    (ha : ∀ t, row.actions.get? t = row'.actions.get? t)
    (hg : ∀ n, row.gotos.get? n = row'.gotos.get? n) : row = row' := by
  obtain ⟨atEnd, actions, gotos⟩ := row
  obtain ⟨atEnd', actions', gotos'⟩ := row'
  cases he
  cases SortedMap.ext ha
  cases SortedMap.ext hg
  rfl

/-- Tables with as many rows that have the same actions and gotos have the same rows. -/
theorem ParseTable.rows_eq {table table' : ParseTable T N}
    (hs : table.rows.length = table'.rows.length)
    (ha : ∀ i a, table.action? i a = table'.action? i a)
    (hg : ∀ i n, table.goto? i n = table'.goto? i n) : table.rows = table'.rows := by
  refine List.ext_getElem hs fun i h h' => ?_
  simp only [action?, goto?] at ha hg
  have ha := ha i
  have hg := hg i
  rw [List.getElem?_eq_getElem h, List.getElem?_eq_getElem h'] at ha hg
  exact Row.ext_get? (Option.some.inj (ha none)) (fun t => ha (some t)) hg

namespace Outline

variable {g : Grammar T N V} {policy : Policy T} {start : Nat} {o : Outline T N}
  {verdict : Nat → Lookahead T → Verdict T} {table : ParseTable T N}

/-- Only one error is reported for the first cell that cannot be settled. -/
theorem Fails.unique (ho : o.Lawful g start) {e e' : CompileError T N}
    {cells : List (Nat × Lookahead T)} (h : o.Fails g policy start e cells)
    (h' : o.Fails g policy start e' cells) : e = e' := by
  induction h with
  | here hs =>
      cases h' with
      | here hs' =>
          cases hs.unique ho.fit hs'
          rfl
      | later hs' _ => cases hs.unique ho.fit hs'
  | later hs _ ih =>
      cases h' with
      | here hs' => cases hs.unique ho.fit hs'
      | later _ h' => exact ih h'

/-- Where every cell has a verdict nothing fails. -/
theorem not_fails (ho : o.Lawful g start) {cells : List (Nat × Lookahead T)} (hv : ∀ cell ∈ cells,
      (o.candidates g policy start cell.1 cell.2).Settles g policy cell.1 cell.2
        (.ok (verdict cell.1 cell.2)))
    {e : CompileError T N} : ¬ o.Fails g policy start e cells := by
  intro h
  induction h with
  | here hs => cases hs.unique ho.fit (hv _ List.mem_cons_self)
  | later _ _ ih => exact ih fun cell hc => hv cell (List.mem_cons_of_mem _ hc)

/-- A resolution has the action by which the candidates of a cell are settled. -/
theorem Resolved.action_of_settles (hr : o.Resolved g policy start verdict table)
    (ho : o.Lawful g start) {i : Nat} {a : Lookahead T} (hm : (i, a) ∈ o.scan g) {v : Verdict T}
    (h : (o.candidates g policy start i a).Settles g policy i a (.ok v)) :
    table.action? i a = some v.toAction := by
  rw [hr.action hm, Except.ok.inj ((hr.settles hm).unique ho.fit h)]

omit [Ordered T] [Ordered N] in
/-- Nothing is accepted before a terminal. -/
theorem not_accept_some {i : Nat} {t : T} :
    ¬ (o.candidates g policy start i (some t)).accept := by
  rintro ⟨h, _⟩
  cases h

/-- What can only be shifted is shifted. -/
theorem Resolved.action_shift (hr : o.Resolved g policy start verdict table)
    (ho : o.Lawful g start) {i j : Nat} {t : T} (hn : o.next? i (.terminal t) = some j)
    (nothing : (o.candidates g policy start i (some t)).reduces = ∅) :
    table.action? i (some t) = some (.shift j) := by
  have shift : .shift j ∈ (o.candidates g policy start i (some t)).actions T :=
    Candidates.shift_mem_actions.mpr hn
  exact hr.action_of_settles ho (ho.mem_scan_of_mem_actions shift)
    (.shift not_accept_some hn nothing)

/-- What can only be accepted is accepted. -/
theorem Resolved.action_accept (hr : o.Resolved g policy start verdict table)
    (ho : o.Lawful g start) {i : Nat} {a : Lookahead T}
    (ha : (o.candidates g policy start i a).accept)
    (nothing : (o.candidates g policy start i a).reduces = ∅) :
    table.action? i a = some .accept :=
  hr.action_of_settles ho (ho.mem_scan_of_mem_actions (Candidates.accept_mem_actions.mpr ha))
    (.accept ha nothing)

/-- What can only be reduced is reduced. -/
theorem Resolved.action_reduce (hr : o.Resolved g policy start verdict table)
    (ho : o.Lawful g start) {i p : Nat} {a : Lookahead T}
    (ha : ¬ (o.candidates g policy start i a).accept)
    (hs : (o.candidates g policy start i a).shift? = none)
    (only : (o.candidates g policy start i a).reduces = {p}) :
    table.action? i a = some (.reduce p) := by
  have least : IsLeast (o.candidates g policy start i a).reduces p := by
    rw [only]
    exact isLeast_singleton
  exact hr.action_of_settles ho
    (ho.mem_scan_of_mem_actions (Candidates.reduce_mem_actions.mpr least.1)) (.reduce ha hs least)

/-- There is only one resolution. -/
theorem Resolved.unique (ho : o.Lawful g start) {verdict' : Nat → Lookahead T → Verdict T}
    {table' : ParseTable T N} (h : o.Resolved g policy start verdict table)
    (h' : o.Resolved g policy start verdict' table') : table = table' := by
  have agree {i : Nat} {a : Lookahead T} (hm : (i, a) ∈ o.scan g) : verdict i a = verdict' i a :=
    Except.ok.inj ((h.settles hm).unique ho.fit (h'.settles hm))
  have rows : table.rows = table'.rows := by
    refine ParseTable.rows_eq (h.size.trans h'.size.symm) (fun i a => ?_) fun i n => ?_
    · by_cases hm : (i, a) ∈ o.scan g
      · rw [h.action hm, h'.action hm, agree hm]
      · rw [h.silent hm, h'.silent hm]
    · rw [h.goto, h'.goto]
  have conflicts : table.conflicts = table'.conflicts := by
    rw [h.conflicts, h'.conflicts]
    refine List.filterMap_congr fun (i, a) hm => ?_
    show (verdict i a).conflict? = (verdict' i a).conflict?
    rw [agree hm]
  have start_eq := h.start_eq.trans h'.start_eq.symm
  have startProduction := h.startProduction.trans h'.startProduction.symm
  have productions := h.productions.trans h'.productions.symm
  cases table
  cases table'
  simp only at rows start_eq startProduction productions conflicts
  rw [rows, start_eq, startProduction, productions, conflicts]

end Outline

namespace Grammar

/-- For every grammar that is fit for a table, both methods and every policy: compilation
fails with an error exactly if that is the error of the first cell of the scan that cannot
be settled, and gives a table exactly if that is the resolution of the candidates. -/
theorem compile_exact {g : Grammar T N V} {start : N} {p : Nat} (hv : g.validate start = .ok p)
    (method : Method) (policy : Policy T) :
    (∀ e, (g.compile method start policy).table = .error e ↔
      (g.outline method start p).Fails g policy p e ((g.outline method start p).scan g)) ∧
    ∀ table, (g.compile method start policy).table = .ok table ↔
      ∃ verdict, (g.outline method start p).Resolved g policy p verdict table := by
  have ho := lawful_outline (starts_of_validate hv) method
  rcases resolved_or_fails hv method policy with ⟨table, verdict, ht, hr⟩ | ⟨e, he, hf⟩
  · have settled : ∀ e, ¬ (g.outline method start p).Fails g policy p e _ :=
      fun e => Outline.not_fails ho fun cell hc => hr.settles hc
    rw [ht]
    refine ⟨fun e => ⟨nofun, fun hf => absurd hf (settled e)⟩, fun table' => ⟨?_, ?_⟩⟩
    · intro he
      cases he
      exact ⟨verdict, hr⟩
    · intro ⟨_, hr'⟩
      rw [hr.unique ho hr']
  · rw [he]
    refine ⟨fun e' => ⟨?_, ?_⟩, fun table => ⟨nofun, ?_⟩⟩
    · intro he
      cases he
      exact hf
    · intro hf'
      rw [hf.unique ho hf']
    · intro ⟨_, hr⟩
      exact absurd hf (Outline.not_fails ho fun cell hc => hr.settles hc)

/-- Sums are ambiguous, and their table settles that. -/
theorem resolved_sums : sums.validate 0 = .ok 0 ∧
    ∃ table verdict, (sums.compile .lr1 0 {}).table = .ok table ∧
      (sums.outline .lr1 0 0).Resolved sums {} 0 verdict table := by
  refine ⟨validate_sums, ?_⟩
  have compiles : (sums.compile .lr1 0 {}).table.isOk = true := by decide +kernel
  cases ht : (sums.compile .lr1 0 {}).table with
  | error e =>
      rw [ht] at compiles
      cases compiles
  | ok table =>
      obtain ⟨verdict, hr⟩ := ((compile_exact validate_sums .lr1 {}).2 table).mp ht
      exact ⟨table, verdict, rfl, hr⟩

end Grammar

end BottomUp
