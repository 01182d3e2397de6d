import BottomUp.Proofs.Candidates
import Mathlib.Data.List.TakeWhile

/-!
# Tables as resolutions

The cells of a table are scanned state by state, in each state the end of the input first
and then the terminals in ascending order (`Outline.scan`).  The table fails with what is
reported for the first cell of the scan whose candidates cannot be settled
(`Outline.Fails`).  If there is none, it is the *resolution* of the candidates: each cell
holds the action that its candidates are settled by, the gotos are the transitions on
nonterminals, and the conflicts are those recorded along the scan (`Outline.Resolved`).

A draft keeps only the cells for which there was an offer.  The others are settled without
a fault or a record, so leaving them out of the scan makes no difference.
-/

namespace BottomUp

variable {T N V Λ : Type} [Ordered T] [Ordered N] [Ordered Λ]

open Ordered (Before)

namespace Grammar

/-- The lookaheads in the order in which the cells of a state are scanned. -/
def lookaheads (g : Grammar T N V) : List (Lookahead T) := none :: g.terminals.toList.map some

variable {g : Grammar T N V}

omit [Ordered N] in
@[simp] theorem none_mem_lookaheads : none ∈ g.lookaheads := List.mem_cons_self

omit [Ordered N] in
@[simp] theorem some_mem_lookaheads {t : T} : some t ∈ g.lookaheads ↔ t ∈ g.terminals := by
  simp [lookaheads]

omit [Ordered N] in
theorem sorted_lookaheads : g.lookaheads.Pairwise Before := by
  refine List.pairwise_cons.mpr ⟨?_, List.pairwise_map.mpr g.terminals.sorted⟩
  intro a ha
  obtain ⟨t, _, rfl⟩ := List.mem_map.mp ha
  rfl

end Grammar

namespace Outline

/-- The cells of the table in the order in which they are scanned. -/
def scan (o : Outline T N) (g : Grammar T N V) : List (Nat × Lookahead T) :=
  (List.range o.size).flatMap fun i => g.lookaheads.map fun a => (i, a)

/-- The table is the resolution of the candidates by these verdicts. -/
structure Resolved (o : Outline T N) (g : Grammar T N V) (policy : Policy T) (start : Nat)
    (verdict : Nat → Lookahead T → Verdict T) (table : ParseTable T N) : Prop where
  size : table.rows.length = o.size
  start_eq : table.start = 0
  startProduction : table.startProduction = start
  productions : table.productions = g.productions.map fun p => ⟨p.lhs, p.rhs.length⟩
  goto (i : Nat) (n : N) : table.goto? i n = o.next? i (.nonterminal n)
  settles {i : Nat} {a : Lookahead T} : (i, a) ∈ o.scan g →
    (o.candidates g policy start i a).Settles g policy i a (.ok (verdict i a))
  action {i : Nat} {a : Lookahead T} : (i, a) ∈ o.scan g →
    table.action? i a = some (verdict i a).toAction
  silent {i : Nat} {a : Lookahead T} : (i, a) ∉ o.scan g → table.action? i a = none
  conflicts : table.conflicts = (o.scan g).filterMap fun (i, a) => (verdict i a).conflict?

/-- The error is what is reported for the first of some cells that cannot be settled. -/
inductive Fails (o : Outline T N) (g : Grammar T N V) (policy : Policy T) (start : Nat)
    (e : CompileError T N) : List (Nat × Lookahead T) → Prop
  /-- The first cell cannot be settled. -/
  | here {i : Nat} {a : Lookahead T} {cells : List (Nat × Lookahead T)} :
      (o.candidates g policy start i a).Settles g policy i a (.error e) →
      Fails o g policy start e ((i, a) :: cells)
  /-- The first cell is settled, and one of the others cannot be. -/
  | later {i : Nat} {a : Lookahead T} {v : Verdict T} {cells : List (Nat × Lookahead T)} :
      (o.candidates g policy start i a).Settles g policy i a (.ok v) →
      Fails o g policy start e cells → Fails o g policy start e ((i, a) :: cells)

variable {g : Grammar T N V} {policy : Policy T} {start : Nat} {o : Outline T N} {i : Nat}
  {a : Lookahead T}

omit [Ordered N] in
@[simp] theorem mem_scan : (i, a) ∈ o.scan g ↔ i < o.size ∧ a ∈ g.lookaheads := by
  simp [scan]

/-- The candidates that a lawful automaton has for a cell fit it. -/
theorem Lawful.fit (h : o.Lawful g start) : (o.candidates g policy start i a).Fit g a where
  accept := fun ha => ha.1
  shift := by
    intro j hj
    obtain ⟨t, ht, _⟩ := Option.bind_eq_some_iff.mp hj
    exact ⟨t, ht⟩
  reduces := by
    intro p hp
    obtain ⟨production, hg, _⟩ := h.exists_production (h.holds_of_expects hp.2.1)
    exact ⟨production, hg⟩

end Outline

/-! ## The draft of an automaton offers the candidates -/

namespace Machine

variable {machine : Machine T N Λ} {g : Grammar T N V} {aheads : Item Λ → List (Lookahead T)}
  {policy : Policy T} {start i p : Nat} {a : Lookahead T}

/-- What an automaton offers to a draft. -/
def Makes (machine : Machine T N Λ) (g : Grammar T N V) (aheads : Item Λ → List (Lookahead T))
    (o : Offer T) : Prop :=
  (∃ t ∈ machine.transitions, t.Offers o) ∨ o ∈ machine.reductions g aheads

theorem makes_shift {t : T} {j : Nat} :
    machine.Makes g aheads (.shift i t j) ↔ machine.next? i (.terminal t) = some j := by
  constructor
  · intro h
    rcases h with ⟨⟨i', s, j'⟩, hm, t', hs, he⟩ | h
    · cases hs
      cases he
      exact mem_transitions.mp hm
    · obtain ⟨_, _, _, _, _, _, he⟩ := mem_reductions.mp h
      cases he
  · intro h
    exact .inl ⟨⟨i, .terminal t, j⟩, mem_transitions.mpr h, t, rfl, rfl⟩

theorem makes_reduce (h : (machine.outline aheads).Lawful g start) :
    machine.Makes g aheads (.reduce i a p) ↔
      (machine.outline aheads).expects i p (g.rhs p).length a := by
  constructor
  · intro hm
    rcases hm with ⟨_, _, _, _, he⟩ | hm
    · cases he
    · obtain ⟨i', item, hi, hc, a', ha, he⟩ := mem_reductions.mp hm
      cases he
      refine expects_outline.mpr ⟨item, hi, rfl, ?_, ha⟩
      obtain ⟨production, hg, hd⟩ := h.exists_production (holds_outline.mpr ⟨item, hi, rfl, rfl⟩)
      rw [Grammar.rhs_of_getElem? hg]
      refine Nat.le_antisymm hd ?_
      rw [Item.isComplete, Item.rest, Grammar.rhs_of_getElem? hg, List.isEmpty_iff] at hc
      exact List.drop_eq_nil_iff.mp hc
  · intro he
    obtain ⟨item, hi, rfl, hd, ha⟩ := expects_outline.mp he
    refine .inr (mem_reductions.mpr ⟨i, item, hi, ?_, a, ha, rfl⟩)
    rw [Item.isComplete, Item.rest, hd, List.drop_length]
    rfl

/-- A cell that holds the offers of an automaton is offered its candidates. -/
theorem offers_of_holds {cell : Cell} (h : (machine.outline aheads).Lawful g start)
    (hc : cell.Holds policy start (machine.Makes g aheads) i a) :
    cell.Offers ((machine.outline aheads).candidates g policy start i a) where
  shift := by
    refine Option.ext fun j => hc.shift.trans ?_
    simp only [Outline.candidates, Option.bind_eq_some_iff, makes_shift, next?_outline]
  reduces := by
    refine Set.ext fun p => hc.reduce.trans ?_
    rw [makes_reduce h]
    constructor
    · intro ⟨he, hn, hv⟩
      refine ⟨fun hp => hn ⟨hp, ?_⟩, he, hv⟩
      subst hp
      exact h.start_expects he
    · intro ⟨hn, he, hv⟩
      exact ⟨he, fun hp => hn hp.1, hv⟩
  accept := by
    refine hc.accept.trans ?_
    rw [makes_reduce h]
    constructor
    · intro ⟨he, ha⟩
      exact ⟨ha, ha ▸ he⟩
    · intro ⟨ha, he⟩
      exact ⟨ha ▸ he, ha⟩

/-- An automaton makes offers only for cells of the scan. -/
theorem mem_scan_of_makes (h : (machine.outline aheads).Lawful g start) {o : Offer T}
    (hm : machine.Makes g aheads o) : (o.state, o.ahead) ∈ (machine.outline aheads).scan g := by
  cases o with
  | shift i t j =>
      have hn : (machine.outline aheads).next? i (.terminal t) = some j := makes_shift.mp hm
      refine Outline.mem_scan.mpr ⟨h.lt_of_next hn, ?_⟩
      exact Grammar.some_mem_lookaheads.mpr (h.mem_terminals_of_next hn)
  | reduce i a p =>
      have he := (makes_reduce h).mp hm
      refine Outline.mem_scan.mpr ⟨h.lt_size (h.holds_of_expects he), ?_⟩
      cases a with
      | none => exact Grammar.none_mem_lookaheads
      | some t => exact Grammar.some_mem_lookaheads.mpr (h.mem_terminals he)

end Machine

/-! ## A draft is settled along the scan -/

namespace Draft

variable {d : Draft T N V} {policy : Policy T} {i : Nat} {a : Lookahead T} {n : N}

/-- The verdict on a cell, where one comes about. -/
def verdict (d : Draft T N V) (policy : Policy T) (i : Nat) (a : Lookahead T) : Verdict T :=
  match d.settle policy i a (d.cell i a) with
  | .ok v => v
  | .error _ => .action (.unexpected a)

/-- What is reported for a cell, if anything. -/
def fault? (d : Draft T N V) (policy : Policy T) (i : Nat) (a : Lookahead T) :
    Option (CompileError T N) :=
  match d.settle policy i a (d.cell i a) with
  | .ok _ => none
  | .error e => some e

theorem fault?_eq_some_iff {e : CompileError T N} :
    d.fault? policy i a = some e ↔ d.settle policy i a (d.cell i a) = .error e := by
  rw [fault?]
  cases d.settle policy i a (d.cell i a) with
  | ok v => simp
  | error e' => simp

theorem fault?_eq_none_iff :
    d.fault? policy i a = none ↔ d.settle policy i a (d.cell i a) = .ok (d.verdict policy i a) := by
  rw [fault?, verdict]
  cases d.settle policy i a (d.cell i a) with
  | ok v => simp
  | error e => simp

/-- A cell that is not stored is an error of its own. -/
theorem settle_of_cell?_eq_none (h : d.cell? i a = none) :
    d.settle policy i a (d.cell i a) = .ok (.action (.unexpected a)) := by
  rw [cell_eq, h]
  rfl

theorem cell_of_cell? {cell : Cell} (h : d.cell? i a = some cell) : d.cell i a = cell := by
  rw [cell_eq, h]
  rfl

/-- A draft with as many states as an automaton that stores cells of its scan only. -/
structure Within (d : Draft T N V) (o : Outline T N) : Prop where
  size_eq : d.rows.size = o.size
  stored {i : Nat} {a : Lookahead T} : (d.cell? i a).isSome = true → a ∈ d.grammar.lookaheads

variable {o : Outline T N}

theorem zipIdx_rows (d : Draft T N V) :
    d.rows.toList.zipIdx = (List.range d.rows.size).map fun i => (d.rows.getD i {}, i) := by
  refine List.ext_getElem (by simp) fun i h _ => ?_
  have hi : i < d.rows.size := by simpa using h
  simp [hi]

theorem get?_cells_getD (d : Draft T N V) {i : Nat} (hi : i < d.rows.size) (a : Lookahead T) :
    (d.rows.getD i {}).cells.get? a = d.cell? i a := by
  rw [cell?, Array.getElem?_eq_getElem hi]
  simp [hi]

/-- The stored cells are those of the scan that are stored. -/
theorem Within.sites_eq (h : d.Within o) :
    d.sites = (o.scan d.grammar).filterMap fun (i, a) =>
      (d.cell? i a).map fun cell => ⟨i, a, cell⟩ := by
  rw [sites, zipIdx_rows, List.flatMap_map, Outline.scan, List.filterMap_flatMap, ← h.size_eq]
  refine List.flatMap_congr fun i hi => ?_
  have hi := get?_cells_getD d (List.mem_range.mp hi)
  have keys : ∀ a, ((d.rows.getD i {}).cells.get? a).isSome = true → a ∈ d.grammar.lookaheads := by
    intro a ha
    rw [hi] at ha
    exact h.stored ha
  show (d.rows.getD i {}).cells.toList.map _ = _
  rw [SortedMap.toList_eq_filterMap Grammar.sorted_lookaheads keys, List.map_filterMap,
    List.filterMap_map]
  refine List.filterMap_congr fun a _ => ?_
  rw [Option.map_map, hi]
  rfl

/-- The first cell of the scan with a fault decides what is reported. -/
theorem Within.failure?_eq (h : d.Within o) :
    d.failure? policy = (o.scan d.grammar).findSome? fun (i, a) => d.fault? policy i a := by
  rw [failure?, h.sites_eq, ← List.head?_filterMap, List.filterMap_filterMap, List.head?_filterMap]
  refine congrArg (fun f => List.findSome? f (o.scan d.grammar)) (funext fun (i, a) => ?_)
  show ((d.cell? i a).map _).bind _ = d.fault? policy i a
  cases hc : d.cell? i a with
  | none =>
      rw [fault?, settle_of_cell?_eq_none hc]
      rfl
  | some cell =>
      rw [fault?, cell_of_cell? hc]
      rfl

/-- Without a failure the conflicts are those recorded along the scan. -/
theorem Within.defaulted_eq (h : d.Within o) (hf : d.failure? policy = none) :
    d.defaulted policy = (o.scan d.grammar).filterMap fun (i, a) =>
      (d.verdict policy i a).conflict? := by
  have settled : d.settledSites policy = d.sites := by
    refine List.takeWhile_eq_self_iff.mpr fun site hs => ?_
    have hs := List.findSome?_eq_none_iff.mp hf site hs
    split at hs
    · rename_i hok
      rw [hok]
      rfl
    · cases hs
  rw [defaulted, settled, h.sites_eq, List.filterMap_filterMap]
  refine congrArg (fun f => List.filterMap f (o.scan d.grammar)) (funext fun (i, a) => ?_)
  show ((d.cell? i a).map _).bind _ = (d.verdict policy i a).conflict?
  cases hc : d.cell? i a with
  | none =>
      rw [verdict, settle_of_cell?_eq_none hc]
      rfl
  | some cell =>
      have site : d.settleSite policy ⟨i, a, cell⟩ = d.settle policy i a cell := rfl
      simp only [Option.map_some, Option.bind_some, site, verdict, cell_of_cell? hc]
      cases d.settle policy i a cell with
      | ok v => rfl
      | error e => rfl

/-- The action of a cell is that of its verdict. -/
theorem settledAction_eq (d : Draft T N V) (policy : Policy T) (i : Nat) (a : Lookahead T) :
    d.settledAction policy i a (d.cell i a) = (d.verdict policy i a).toAction := by
  rw [settledAction, verdict]
  cases d.settle policy i a (d.cell i a) with
  | ok v => rfl
  | error e => rfl

theorem toAction_verdict_of_cell?_eq_none (h : d.cell? i a = none) :
    (d.verdict policy i a).toAction = .unexpected a := by
  rw [verdict, settle_of_cell?_eq_none h]
  rfl

/-! ## The finished rows -/

/-- The terminals of the cells that a row stores, each with the action of its verdict. -/
theorem filterMap_cells (d : Draft T N V) (policy : Policy T) (hi : i < d.rows.size) :
    ((d.rows.getD i {}).cells.toList.filterMap fun (a, cell) =>
        a.map fun t => (t, d.settledAction policy i a cell)) =
      ((d.rows.getD i {}).cells.toList.filterMap Prod.fst).map fun t =>
        (t, (d.verdict policy i (some t)).toAction) := by
  rw [List.map_filterMap]
  refine List.filterMap_congr fun (a, cell) hm => ?_
  rw [← SortedMap.get?_eq_some_iff, get?_cells_getD d hi] at hm
  cases a with
  | none => rfl
  | some t =>
      show some (t, _) = some (t, _)
      rw [← settledAction_eq, cell_of_cell? hm]

theorem mem_filterMap_cells {t : T} (hi : i < d.rows.size) :
    t ∈ (d.rows.getD i {}).cells.toList.filterMap Prod.fst ↔
      (d.cell? i (some t)).isSome = true := by
  rw [List.mem_filterMap, Option.isSome_iff_exists, ← get?_cells_getD d hi]
  simp only [SortedMap.get?_eq_some_iff]
  constructor
  · intro ⟨(a, cell), hm, ha⟩
    cases ha
    exact ⟨cell, hm⟩
  · intro ⟨cell, hm⟩
    exact ⟨(some t, cell), hm, rfl⟩

/-- A finished row has the action of the verdict on each terminal of the grammar. -/
theorem Within.get?_actions (h : d.Within o) (hi : i < d.rows.size) (t : T) :
    (d.finishRow policy i (d.rows.getD i {})).actions.get? t =
      if t ∈ d.grammar.terminals then some (d.verdict policy i (some t)).toAction else none := by
  rw [finishRow, SortedMap.get?_ofList_append, filterMap_cells d policy hi,
    SortedMap.get?_ofList_map, SortedMap.get?_ofList_map (f := fun t => Action.unexpected (some t))]
  simp only [SortedSet.mem_toList, mem_filterMap_cells hi]
  cases hc : d.cell? i (some t) with
  | some cell =>
      have listed := Grammar.some_mem_lookaheads.mp (h.stored (by rw [hc]; rfl))
      rw [Option.isSome_some, if_pos rfl, Option.some_or, if_pos listed]
  | none =>
      rw [if_neg (by simp), Option.none_or, toAction_verdict_of_cell?_eq_none hc]

theorem atEnd_finishRow (hi : i < d.rows.size) :
    (d.finishRow policy i (d.rows.getD i {})).atEnd = (d.verdict policy i none).toAction := by
  have stored := get?_cells_getD d hi none
  cases hc : d.cell? i none with
  | some cell =>
      rw [hc] at stored
      simp only [finishRow, stored]
      rw [← settledAction_eq, cell_of_cell? hc]
  | none =>
      rw [hc] at stored
      simp only [finishRow, stored]
      rw [toAction_verdict_of_cell?_eq_none hc]

theorem getElem?_rows_finished (d : Draft T N V) (policy : Policy T) (i : Nat) :
    (d.finished policy).rows[i]? =
      if i < d.rows.size then some (d.finishRow policy i (d.rows.getD i {})) else none := by
  show (d.rows.toList.zipIdx.map _)[i]? = _
  rw [zipIdx_rows, List.map_map, List.getElem?_map]
  by_cases hi : i < d.rows.size
  · rw [if_pos hi, List.getElem?_range hi]
    rfl
  · rw [if_neg hi, List.getElem?_eq_none (by simpa using hi)]
    rfl

/-- The finished table has the actions of the verdicts in the cells of the scan. -/
theorem Within.action?_finished (h : d.Within o) :
    (d.finished policy).action? i a =
      if (i, a) ∈ o.scan d.grammar then some (d.verdict policy i a).toAction else none := by
  simp only [ParseTable.action?, getElem?_rows_finished, Outline.mem_scan, ← h.size_eq]
  by_cases hi : i < d.rows.size
  · cases a with
    | none =>
        simp only [hi, if_true, atEnd_finishRow, Grammar.none_mem_lookaheads, and_self]
    | some t =>
        simp only [hi, if_true, h.get?_actions, Grammar.some_mem_lookaheads, true_and]
  · simp [hi]

theorem goto?_finished (d : Draft T N V) (policy : Policy T) (i : Nat) (n : N) :
    (d.finished policy).goto? i n = d.goto? i n := by
  rw [ParseTable.goto?, getElem?_rows_finished, goto?]
  by_cases hi : i < d.rows.size
  · rw [if_pos hi, Array.getElem?_eq_getElem hi]
    simp [finishRow, hi]
  · rw [if_neg hi, Array.getElem?_eq_none (Nat.le_of_not_lt hi)]
    rfl

end Draft

/-! ## The tables of both methods -/

namespace Draft

variable {d : Draft T N V} {policy : Policy T} {start : Nat} {o : Outline T N}

/-- If a draft is offered the candidates of an automaton, it reports what is reported for
the first cell that cannot be settled. -/
theorem fails_of_findSome? (ho : o.Lawful d.grammar start)
    (hc : ∀ i a, (d.cell i a).Offers (o.candidates d.grammar policy start i a))
    {e : CompileError T N} : ∀ {cells : List (Nat × Lookahead T)},
      cells.findSome? (fun (i, a) => d.fault? policy i a) = some e →
      o.Fails d.grammar policy start e cells
  | [], h => by cases h
  | (i, a) :: cells, h => by
      rw [List.findSome?_cons] at h
      cases hf : d.fault? policy i a with
      | some e' =>
          simp only [hf, Option.some.injEq] at h
          subst h
          exact .here ((settle_eq_iff (hc i a) ho.fit).mp (fault?_eq_some_iff.mp hf))
      | none =>
          simp only [hf] at h
          exact .later ((settle_eq_iff (hc i a) ho.fit).mp (fault?_eq_none_iff.mp hf))
            (fails_of_findSome? ho hc h)

/-- Without a failure such a draft gives the resolution of the candidates. -/
theorem Within.resolved (h : d.Within o) (ho : o.Lawful d.grammar d.startProduction)
    (hc : ∀ i a, (d.cell i a).Offers (o.candidates d.grammar policy d.startProduction i a))
    (hg : ∀ i n, d.goto? i n = o.next? i (.nonterminal n)) (hf : d.failure? policy = none) :
    o.Resolved d.grammar policy d.startProduction (d.verdict policy) (d.finished policy) where
  size := by
    rw [finished, List.length_map, List.length_zipIdx, Array.length_toList, h.size_eq]
  start_eq := rfl
  startProduction := rfl
  productions := rfl
  goto := by
    intro i n
    rw [goto?_finished, hg]
  settles := by
    intro i a hm
    rw [h.failure?_eq] at hf
    have hf := List.findSome?_eq_none_iff.mp hf (i, a) hm
    exact (settle_eq_iff (hc i a) ho.fit).mp (fault?_eq_none_iff.mp hf)
  action := by
    intro i a hm
    rw [h.action?_finished, if_pos hm]
  silent := by
    intro i a hm
    rw [h.action?_finished, if_neg hm]
  conflicts := h.defaulted_eq hf

end Draft

namespace Machine

variable {machine : Machine T N Λ} {g : Grammar T N V} {aheads : Item Λ → List (Lookahead T)}
  {start : Nat}

/-- The draft of a lawful automaton stores cells of the scan only. -/
theorem within_of_holds {d : Draft T N V} {policy : Policy T} {linked : Nat → N → Nat → Prop}
    (ho : (machine.outline aheads).Lawful g start)
    (h : d.Holds g policy start machine.states.length (machine.Makes g aheads) linked) :
    d.Within (machine.outline aheads) where
  size_eq := h.size_eq
  stored := by
    intro i a hs
    obtain ⟨o, hm, rfl, rfl⟩ := h.stored.mp hs
    rw [h.grammar_eq]
    exact (Outline.mem_scan.mp (mem_scan_of_makes ho hm)).2

/-- The table of a lawful automaton is the resolution of its candidates, or there is none
because of the first cell that cannot be settled. -/
theorem resolved_or_fails (ho : (machine.outline aheads).Lawful g start) (policy : Policy T)
    (kind : String) :
    (∃ table verdict, (machine.compile g policy kind start aheads).table = .ok table ∧
      (machine.outline aheads).Resolved g policy start verdict table) ∨
    ∃ e, (machine.compile g policy kind start aheads).table = .error e ∧
      (machine.outline aheads).Fails g policy start e ((machine.outline aheads).scan g) := by
  obtain ⟨d, hd, holds⟩ := machine.exists_draft g policy start aheads
  have table : (machine.compile g policy kind start aheads).table = (d.finish policy).table := by
    rw [compile, hd]
  have within := within_of_holds ho holds
  have offers : ∀ i a, (d.cell i a).Offers
      ((machine.outline aheads).candidates g policy start i a) :=
    fun i a => offers_of_holds ho (holds.cell i a)
  have gotos : ∀ i n, d.goto? i n = (machine.outline aheads).next? i (.nonterminal n) :=
    fun i n => Option.ext fun j => holds.goto
  obtain rfl := holds.grammar_eq
  obtain rfl := holds.start_eq
  rw [table, Draft.finish]
  cases hf : d.failure? policy with
  | some e =>
      refine .inr ⟨e, rfl, ?_⟩
      rw [within.failure?_eq] at hf
      exact Draft.fails_of_findSome? ho offers hf
  | none => exact .inl ⟨_, _, rfl, within.resolved ho offers gotos hf⟩

end Machine

namespace Grammar

variable {g : Grammar T N V} {start : N} {p : Nat} {method : Method} {policy : Policy T}
  {table : ParseTable T N}

/-- Compiling a grammar gives the resolution of the candidates of its automaton, or nothing
because of the first cell that cannot be settled. -/
theorem resolved_or_fails (hv : g.validate start = .ok p) (method : Method) (policy : Policy T) :
    (∃ table verdict, (g.compile method start policy).table = .ok table ∧
      (g.outline method start p).Resolved g policy p verdict table) ∨
    ∃ e, (g.compile method start policy).table = .error e ∧
      (g.outline method start p).Fails g policy p e ((g.outline method start p).scan g) := by
  have ho := lawful_outline (starts_of_validate hv) method
  rw [compile, hv]
  cases method with
  | slr => exact Machine.resolved_or_fails ho policy _
  | lr1 => exact Machine.resolved_or_fails ho policy _

/-- A compiled table is a resolution. -/
theorem exists_resolved (h : (g.compile method start policy).table = .ok table) :
    ∃ p, g.validate start = .ok p ∧
      ∃ verdict, (g.outline method start p).Resolved g policy p verdict table := by
  cases hv : g.validate start with
  | error fault =>
      rw [compile, hv] at h
      cases h
  | ok p =>
      refine ⟨p, rfl, ?_⟩
      rcases resolved_or_fails hv method policy with ⟨table', verdict, ht, hr⟩ | ⟨e, he, _⟩
      · cases h.symm.trans ht
        exact ⟨verdict, hr⟩
      · cases h.symm.trans he

/-- The sum of some values. -/
def total (values : List Nat) : Nat := values.foldl Nat.add 0

/-- Sums: a sentence `0` is a term `1`, and a term is two terms with the terminal `1` between
them, which associates to the left, or the terminal `0`. -/
def sums : Grammar Nat Nat Nat :=
  .ofClauses [
    .rule 0 [([.nonterminal 1], none, total)],
    .rule 1 [([.nonterminal 1, .terminal 1, .nonterminal 1], none, total),
      ([.terminal 0], none, total)],
    .declare .left [1]]

theorem validate_sums : sums.validate 0 = .ok 0 := by rfl

end Grammar

end BottomUp
