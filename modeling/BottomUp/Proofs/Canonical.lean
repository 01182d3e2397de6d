import BottomUp.Proofs.ValidItems

/-!
# Canonical collections

The states that are built from a kernel are its canonical collection: no closed set comes
twice, the transitions are those of the goto function, and nothing is there that cannot be
reached (`Machine.Canonical`).  A state is determined by its items because its kernel is,
which is what `ItemSet.kernelOf` is for.

States are numbered as they are discovered.  A search that misses nothing lists its seeds
and then the successors of what it lists, each where it first comes up
(`reach_eq_append_fresh`).  The successors of all states in this order are the transitions of
the automaton, state by state and symbol by symbol (`Machine.flatMap_nextKernels`).  So a
state has a greater number than another if the first transition to it comes later
(`Machine.target_lt_target`).
-/

namespace BottomUp

variable {T N V Λ : Type}

/-! ## The order of a search -/

section Search

variable {α β : Type} [Ordered α] {succ : α → List α}

theorem fresh_eq_nil {found : SortedSet α} {as : List α} (h : ∀ a ∈ as, a ∈ found) :
    fresh found as = [] :=
  List.eq_nil_iff_forall_not_mem.mpr fun a ha => (mem_fresh.mp ha).2 (h a (mem_fresh.mp ha).1)

/-- What is fresh in two lists is what is fresh in the first and then in the second. -/
theorem fresh_append (bs : List α) : ∀ (as : List α) (found : SortedSet α),
    fresh found (as ++ bs) = fresh found as ++ fresh (found.insertAll as) bs
  | [], _ => rfl
  | a :: as, found => by
      rw [List.cons_append, fresh, fresh]
      show _ = _ ++ fresh ((found.insert a).insertAll as) bs
      by_cases ha : a ∈ found
      · have same : found.insert a = found := by
          refine SortedSet.ext fun b => SortedSet.mem_insert.trans ⟨?_, .inr⟩
          exact fun h => h.elim (fun he => he ▸ ha) id
        rw [if_pos ha, if_pos ha, same, fresh_append bs as]
      · rw [if_neg ha, if_neg ha, fresh_append bs as, List.cons_append]

/-- A search that misses nothing goes on from its latest layer with the successors of all
that it lists, each where it first comes up. -/
theorem explore_eq_append_fresh (succ : α → List α) :
    ∀ (layers : Nat) {found : SortedSet α} {latest : List α}, (∀ a ∈ latest, a ∈ found) →
    (∀ a ∈ explore succ layers found latest, ∀ b ∈ succ a,
      b ∈ found ∨ b ∈ explore succ layers found latest) →
    explore succ layers found latest =
      latest ++ fresh found ((explore succ layers found latest).flatMap succ)
  | 0, found, latest, hl, closed => by
      have nothing : fresh found (latest.flatMap succ) = [] := by
        refine fresh_eq_nil fun b hb => ?_
        obtain ⟨a, ha, hb⟩ := List.mem_flatMap.mp hb
        exact (closed a ha b hb).elim id (hl b)
      rw [explore, nothing, List.append_nil]
  | layers + 1, found, latest, hl, closed => by
      rw [explore] at closed ⊢
      split
      · rename_i hempty
        rw [List.isEmpty_iff.mp hempty, List.append_nil]
      · rename_i hempty
        simp only [if_neg hempty] at closed
        -- the next layer and all that was fresh before it are found together
        have known : found.insertAll (latest.flatMap succ) =
            found.insertAll (fresh found (latest.flatMap succ)) := by
          refine SortedSet.ext fun b => ?_
          rw [SortedSet.mem_insertAll, SortedSet.mem_insertAll, mem_fresh]
          by_cases hb : b ∈ found
          · simp [hb]
          · simp [hb]
        have next : ∀ b ∈ fresh found (latest.flatMap succ),
            b ∈ found.insertAll (fresh found (latest.flatMap succ)) :=
          fun b hb => SortedSet.mem_insertAll.mpr (.inl hb)
        have ih := explore_eq_append_fresh succ layers next fun a ha b hb => by
          rcases closed a (List.mem_append_right _ ha) b hb with hb | hb
          · exact .inl (SortedSet.mem_insertAll.mpr (.inr hb))
          · rcases List.mem_append.mp hb with hb | hb
            · exact .inl (SortedSet.mem_insertAll.mpr (.inr (hl b hb)))
            · exact .inr hb
        rw [List.flatMap_append, fresh_append, known, ← ih]

/-- A search that misses nothing lists its seeds and the successors of what it lists, each
where it first comes up. -/
theorem reach_eq_append_fresh {layers : Nat} {seeds : List α}
    (closed : ∀ a ∈ reach succ layers seeds, ∀ b ∈ succ a, b ∈ reach succ layers seeds) :
    reach succ layers seeds =
      fresh .empty seeds ++ fresh (.ofList seeds) ((reach succ layers seeds).flatMap succ) := by
  have known : SortedSet.ofList seeds = SortedSet.ofList (fresh .empty seeds) := by
    refine SortedSet.ext fun b => ?_
    simp [mem_fresh]
  rw [known]
  exact explore_eq_append_fresh succ layers (fun _ h => SortedSet.mem_ofList.mpr h)
    fun a ha b hb => .inr (closed a ha b hb)

/-- What is listed after the latest layer is a successor of something that is listed
before. -/
theorem exists_lt_of_getElem?_explore {b : α} :
    ∀ {layers : Nat} {found : SortedSet α} {latest : List α} {j : Nat},
      (explore succ layers found latest)[j]? = some b →
      b ∈ latest ∨ ∃ i < j, ∃ a, (explore succ layers found latest)[i]? = some a ∧ b ∈ succ a
  | 0, _, _, _, h => .inl (List.mem_of_getElem? h)
  | layers + 1, found, latest, j, h => by
      rw [explore] at h ⊢
      split at h
      · exact .inl (List.mem_of_getElem? h)
      · rename_i hempty
        rw [if_neg hempty]
        by_cases hj : j < latest.length
        · rw [List.getElem?_append_left hj] at h
          exact .inl (List.mem_of_getElem? h)
        · rw [Nat.not_lt] at hj
          rw [List.getElem?_append_right hj] at h
          refine .inr ?_
          rcases exists_lt_of_getElem?_explore h with hb | ⟨i, hi, a, ha, hb⟩
          · obtain ⟨a, ha, hb⟩ := List.mem_flatMap.mp (mem_fresh.mp hb).1
            obtain ⟨i, hi, rfl⟩ := List.mem_iff_getElem.mp ha
            refine ⟨i, Nat.lt_of_lt_of_le hi hj, _, ?_, hb⟩
            rw [List.getElem?_append_left hi, List.getElem?_eq_getElem hi]
          · refine ⟨latest.length + i, by omega, a, ?_, hb⟩
            rw [List.getElem?_append_right (Nat.le_add_right _ _), Nat.add_sub_cancel_left]
            exact ha

/-- Of two fresh values the one that comes up first is listed first. -/
theorem idxOf_fresh_lt {r : β → β → Prop} (asymm : ∀ {p q}, r p q → ¬ r q p)
    (found : SortedSet α) {f : β → α} {ps : List β} (sorted : ps.Pairwise r) {p q : β} (hp : p ∈ ps)
    (hq : q ∈ ps) (lt : r q p) (first : ∀ q' ∈ ps, r q' p → f q' ≠ f p) (hf : f q ∉ found) :
    (fresh found (ps.map f)).idxOf (f q) < (fresh found (ps.map f)).idxOf (f p) := by
  obtain ⟨before, after, rfl⟩ := List.append_of_mem hp
  obtain ⟨_, later, between⟩ := List.pairwise_append.mp sorted
  have earlier : q ∈ before := by
    refine (List.mem_append.mp hq).resolve_right fun h => ?_
    rcases List.mem_cons.mp h with rfl | h
    · exact asymm lt lt
    · exact asymm lt ((List.pairwise_cons.mp later).1 q h)
  have listed : f q ∈ fresh found (before.map f) :=
    mem_fresh.mpr ⟨List.mem_map.mpr ⟨q, earlier, rfl⟩, hf⟩
  have missing : f p ∉ fresh found (before.map f) := by
    intro h
    obtain ⟨q', hm, he⟩ := List.mem_map.mp (mem_fresh.mp h).1
    exact first q' (List.mem_append_left _ hm) (between q' hm p List.mem_cons_self) he
  rw [List.map_append, fresh_append, List.idxOf_append_of_mem listed,
    List.idxOf_append_of_notMem missing]
  exact Nat.lt_of_lt_of_le (List.idxOf_lt_length_of_mem listed) (Nat.le_add_right _ _)

end Search

/-! ## States are determined by their items -/

theorem SortedSet.isEmpty_eq_false_iff {α : Type} [Ordered α] {s : SortedSet α} :
    s.isEmpty = false ↔ ∃ a, a ∈ s := by
  rw [← isEmpty_toList, List.isEmpty_eq_false_iff_exists_mem]
  simp only [mem_toList]

namespace ItemSet

variable [Ordered N] [Ordered Λ] {g : Grammar T N V} {rule : LookaheadRule g Λ}
  {kernel own : ItemSet Λ}

/-- Items that have read something are the kernel of what they are closed to. -/
theorem kernelOf_closure_of_pos (hc : rule.Confined) (h : ∀ i ∈ own, 0 < i.dot) :
    kernelOf rule (closure rule own) = own := by
  have read : ((closure rule own).filter fun i => 0 < i.dot) = own := by
    refine SortedSet.ext fun i => ?_
    rw [SortedSet.mem_filter, decide_eq_true_eq]
    constructor
    · exact fun ⟨hi, hd⟩ => mem_of_mem_closure_of_pos hc hi hd
    · exact fun hi => ⟨mem_closure_of_mem hc hi, h i hi⟩
  rw [kernelOf]
  simp only [read]
  exact if_pos trivial

variable [Ordered T]

theorem pos_of_mem_advancePast {items : ItemSet Λ} {s : Symbol T N} {i : Item Λ}
    (h : i ∈ advancePast g items s) : 0 < i.dot := by
  obtain ⟨_, _, _, rfl⟩ := mem_advancePast.mp h
  exact Nat.succ_pos _

/-- The kernel of a state is that of its items. -/
theorem kernelOf_closure_of_mem_kernels (hc : rule.Confined) (hk : kernel.isEmpty = false)
    (h : own ∈ kernels rule kernel) : kernelOf rule (closure rule own) = own := by
  cases (mem_kernels hc hk).mp h with
  | seed h => rw [List.mem_singleton.mp h, closure_kernelOf hc]
  | step _ hn =>
      obtain ⟨s, _, rfl⟩ := mem_nextKernels.mp hn
      exact kernelOf_closure_of_pos hc fun i hi => pos_of_mem_advancePast hi

/-- Different kernels have different closures. -/
theorem eq_of_closure_eq (hc : rule.Confined) (hk : kernel.isEmpty = false) {other : ItemSet Λ}
    (h : own ∈ kernels rule kernel) (h' : other ∈ kernels rule kernel)
    (same : closure rule own = closure rule other) : own = other := by
  rw [← kernelOf_closure_of_mem_kernels hc hk h, same, kernelOf_closure_of_mem_kernels hc hk h']

/-- Behind the first kernel those are listed that follow listed ones, each where it first comes
up. -/
theorem kernels_eq_cons_fresh (hc : rule.Confined) (hk : kernel.isEmpty = false) :
    kernels rule kernel = kernelOf rule (closure rule kernel) ::
      fresh (.ofList [kernelOf rule (closure rule kernel)])
        ((kernels rule kernel).flatMap (nextKernels rule)) := by
  have closed := nextKernels_mem_kernels hc hk
  rw [kernels_eq hk] at closed ⊢
  refine (reach_eq_append_fresh closed).trans ?_
  simp [fresh]

/-- There is a next kernel for each symbol that something is read with. -/
theorem mem_nextSymbols_iff {items : ItemSet Λ} {s : Symbol T N} :
    s ∈ nextSymbols g items ↔ (advancePast g items s).isEmpty = false := by
  rw [mem_nextSymbols, SortedSet.isEmpty_eq_false_iff]
  constructor
  · rintro ⟨i, hi, hs⟩
    exact ⟨i.advance, mem_advancePast.mpr ⟨i, hi, hs, rfl⟩⟩
  · rintro ⟨_, h⟩
    obtain ⟨i, hi, hs, _⟩ := mem_advancePast.mp h
    exact ⟨i, hi, hs⟩

end ItemSet

/-! ## The order of transitions -/

variable [Ordered T] [Ordered N] [Ordered Λ]

/-- Transitions are ordered by the states they leave, and those of one state by their
symbols. -/
def Transition.Precedes (t t' : Transition T N) : Prop :=
  Prod.Lex (· < ·) Ordered.Before (t.source, t.symbol) (t'.source, t'.symbol)

namespace Transition

variable {t t' : Transition T N}

theorem precedes_iff :
    t.Precedes t' ↔ t.source < t'.source ∨
      t.source = t'.source ∧ Ordered.Before t.symbol t'.symbol :=
  Prod.lex_iff

theorem Precedes.asymm (h : t.Precedes t') : ¬ t'.Precedes t := by
  rw [precedes_iff] at h ⊢
  rintro (h' | ⟨h', hb'⟩)
  · omega
  · rcases h with h | ⟨_, hb⟩
    · omega
    · exact hb.asymm hb'

theorem precedes_or_precedes (h : (t.source, t.symbol) ≠ (t'.source, t'.symbol)) :
    t.Precedes t' ∨ t'.Precedes t := by
  rw [precedes_iff, precedes_iff]
  rcases Nat.lt_trichotomy t.source t'.source with hlt | he | hgt
  · exact .inl (.inl hlt)
  · have hs : t.symbol ≠ t'.symbol := fun hs => h (Prod.ext he hs)
    rcases Ordered.before_or_before hs with hb | hb
    · exact .inl (.inr ⟨he, hb⟩)
    · exact .inr (.inr ⟨he.symm, hb⟩)
  · exact .inr (.inl hgt)

end Transition

namespace Machine

open ItemSet

variable {g : Grammar T N V} {rule : LookaheadRule g Λ} {kernel : ItemSet Λ}

/-- The transitions of an automaton are listed in their order. -/
theorem sorted_transitions (machine : Machine T N Λ) :
    machine.transitions.Pairwise Transition.Precedes := by
  rw [transitions, List.pairwise_flatMap]
  constructor
  · rintro ⟨state, i⟩ _
    refine List.pairwise_map.mpr (state.transitions.sorted.imp fun hb => ?_)
    exact Transition.precedes_iff.mpr (.inr ⟨rfl, hb⟩)
  · have sources : machine.states.zipIdx.Pairwise fun a b => a.2 < b.2 := by
      rw [← List.pairwise_map (f := Prod.snd) (R := (· < ·)), List.zipIdx_map_snd,
        ← List.range_eq_range']
      exact List.pairwise_lt_range
    refine sources.imp fun {a b} hlt t ht t' ht' => ?_
    obtain ⟨_, _, rfl⟩ := List.mem_map.mp ht
    obtain ⟨_, _, rfl⟩ := List.mem_map.mp ht'
    exact Transition.precedes_iff.mpr (.inl hlt)

theorem toList_transitions_stateOf (rule : LookaheadRule g Λ) (all : List (ItemSet Λ))
    (own : ItemSet Λ) :
    (stateOf rule all own).transitions.toList =
      (nextSymbols g (closure rule own)).toList.map fun s =>
        (s, all.idxOf (advancePast g (closure rule own) s)) := by
  rw [SortedMap.toList_eq_filterMap (nextSymbols g (closure rule own)).sorted]
  · rw [← List.filterMap_eq_map]
    refine List.filterMap_congr fun s hs => ?_
    rw [stateOf, SortedMap.get?_ofList_map, if_pos hs]
    rfl
  · intro s hs
    rw [stateOf, SortedMap.get?_ofList_map] at hs
    exact Decidable.byContradiction fun hn => by simp [hn] at hs

/-- The kernels that follow those of all states are what the transitions lead to, in their
order. -/
theorem flatMap_nextKernels (rule : LookaheadRule g Λ) (kernel : ItemSet Λ) :
    (kernels rule kernel).flatMap (nextKernels rule) =
      (build rule kernel).transitions.map fun t =>
        advancePast g ((build rule kernel).items t.source) t.symbol := by
  rw [transitions, states_build, List.zipIdx_map, List.flatMap_map, List.map_flatMap]
  conv_lhs => rw [← List.zipIdx_map_fst 0 (kernels rule kernel), List.flatMap_map]
  refine List.flatMap_congr fun entry h => ?_
  obtain ⟨own, i⟩ := entry
  have hi : (kernels rule kernel)[i]? = some own := List.mem_zipIdx_iff_getElem?.mp h
  simp only [Prod.map, id, toList_transitions_stateOf, List.map_map, nextKernels_eq]
  refine List.map_congr_left fun s _ => ?_
  simp only [Function.comp_apply, items_build hi]

/-- The state is entered by a transition from an earlier one. -/
theorem exists_lt_of_pos (hk : kernel.isEmpty = false) {j : Nat}
    (hpos : 0 < j) (hj : j < (build rule kernel).states.length) :
    ∃ i < j, ∃ s, (build rule kernel).next? i s = some j := by
  obtain ⟨own, hown⟩ := exists_kernel_of_lt hj
  have listed := hown
  rw [kernels_eq hk, reach] at listed
  rcases exists_lt_of_getElem?_explore listed with h | ⟨i, hi, before, hb, hn⟩
  · have zero : (kernels rule kernel)[0]? = some (kernelOf rule (closure rule kernel)) :=
      getElem?_kernels_zero hk
    rw [← List.mem_singleton.mp (mem_fresh.mp h).1] at zero
    have := (idxOf_kernels hown).symm.trans (idxOf_kernels zero)
    omega
  · have hb : (kernels rule kernel)[i]? = some before := by
      rw [kernels_eq hk]
      exact hb
    obtain ⟨s, hs, rfl⟩ := mem_nextKernels.mp hn
    refine ⟨i, hi, s, ?_⟩
    rw [next?_build hb, if_pos hs, idxOf_kernels hown]

/-- The transition is the first one to the state that it enters. -/
structure Discovers (machine : Machine T N Λ) (t : Transition T N) : Prop where
  enters : machine.next? t.source t.symbol = some t.target
  first {t' : Transition T N} : machine.next? t'.source t'.symbol = some t'.target →
    t'.target = t.target → ¬ t'.Precedes t

/-- There is a first transition to every state that is entered. -/
theorem exists_discovers {machine : Machine T N Λ} {i j : Nat} {s : Symbol T N}
    (h : machine.next? i s = some j) :
    ∃ t, machine.Discovers t ∧ t.target = j ∧ t.source ≤ i := by
  have listed : ⟨i, s, j⟩ ∈ machine.transitions := mem_transitions.mpr h
  cases hf : machine.transitions.find? fun t => t.target = j with
  | none => exact absurd (decide_eq_true rfl) (List.find?_eq_none.mp hf _ listed)
  | some t =>
      obtain ⟨ht, before, after, hsplit, earlier⟩ := List.find?_eq_some_iff_append.mp hf
      have target : t.target = j := of_decide_eq_true ht
      have sorted := machine.sorted_transitions
      rw [hsplit] at sorted
      have first {t' : Transition T N} (hm : t' ∈ machine.transitions) (he : t'.target = j) :
          ¬ t'.Precedes t := by
        rw [hsplit] at hm
        rcases List.mem_append.mp hm with hm | hm
        · have := earlier t' hm
          simp [he] at this
        · rcases List.mem_cons.mp hm with rfl | hm
          · exact fun h => h.asymm h
          · have later := (List.pairwise_append.mp sorted).2.1
            exact ((List.pairwise_cons.mp later).1 t' hm).asymm
      refine ⟨t, ⟨?_, fun h' he => ?_⟩, target, ?_⟩
      · exact mem_transitions.mp (hsplit ▸ List.mem_append_right _ List.mem_cons_self)
      · exact first (mem_transitions.mpr h') (he.trans target)
      · refine Nat.not_lt.mp fun hlt => first listed rfl ?_
        exact Transition.precedes_iff.mpr (.inl hlt)

theorem idxOf_advancePast (hc : rule.Confined) (hk : kernel.isEmpty = false) {t : Transition T N}
    (h : (build rule kernel).next? t.source t.symbol = some t.target) :
    (kernels rule kernel).idxOf (advancePast g ((build rule kernel).items t.source) t.symbol) =
      t.target := by
  obtain ⟨own, hi, _, hj⟩ := kernel_of_next? hc hk h
  rw [items_build hi]
  exact idxOf_kernels hj

/-- A state to which there is a transition before the first one to another state has the
lesser number. -/
theorem target_lt_target (hc : rule.Confined) (hk : kernel.isEmpty = false)
    {t t' : Transition T N} (ht : (build rule kernel).Discovers t)
    (ht' : (build rule kernel).next? t'.source t'.symbol = some t'.target) (hpos : 0 < t.target)
    (hpos' : 0 < t'.target) (before : t'.Precedes t) : t'.target < t.target := by
  let next (t : Transition T N) := advancePast g ((build rule kernel).items t.source) t.symbol
  let first := kernelOf rule (closure rule kernel)
  have zero : (kernels rule kernel).idxOf first = 0 := idxOf_kernels (getElem?_kernels_zero hk)
  have index {t : Transition T N} (h : (build rule kernel).next? t.source t.symbol = some t.target) :
      (kernels rule kernel).idxOf (next t) = t.target := idxOf_advancePast hc hk h
  have other {t : Transition T N} (h : (build rule kernel).next? t.source t.symbol = some t.target)
      (hpos : 0 < t.target) : next t ≠ first := by
    intro he
    rw [← index h, he, zero] at hpos
    exact Nat.lt_irrefl 0 hpos
  have whole : kernels rule kernel =
      first :: fresh (.ofList [first]) ((build rule kernel).transitions.map next) := by
    rw [← flatMap_nextKernels]
    exact kernels_eq_cons_fresh hc hk
  have lt := idxOf_fresh_lt (f := next) Transition.Precedes.asymm (.ofList [first])
    (build rule kernel).sorted_transitions (mem_transitions.mpr ht.enters) (mem_transitions.mpr ht')
    before (fun q hq lt he => ?_) (by simpa using other ht' hpos')
  · rw [← index ht', ← index ht.enters, whole, List.idxOf_cons_ne _ (other ht' hpos').symm,
      List.idxOf_cons_ne _ (other ht.enters hpos).symm]
    exact Nat.succ_lt_succ lt
  · have hq := mem_transitions.mp hq
    exact ht.first hq (by rw [← index hq, he, index ht.enters]) lt

/-- The automaton has the closed sets that gotos lead to from the closure of the kernel, each
once, with the gotos for transitions, in the order in which a breadth-first search discovers
them. -/
structure Canonical (machine : Machine T N Λ) (rule : LookaheadRule g Λ) (kernel : ItemSet Λ) :
    Prop where
  exists_first : 0 < machine.states.length
  first : machine.items 0 = closure rule kernel
  distinct {i j : Nat} : i < machine.states.length → j < machine.states.length →
    machine.items i = machine.items j → i = j
  leaves {i : Nat} (s : Symbol T N) : i < machine.states.length →
    ((∃ j, machine.next? i s = some j) ↔ (advancePast g (machine.items i) s).isEmpty = false)
  enters {i j : Nat} {s : Symbol T N} : machine.next? i s = some j →
    j < machine.states.length ∧ machine.items j = goto rule (machine.items i) s
  reached {i : Nat} : i < machine.states.length → ∃ γ, machine.follow? 0 γ = some i
  discovered {j : Nat} : 0 < j → j < machine.states.length →
    ∃ t, machine.Discovers t ∧ t.target = j ∧ t.source < j
  numbered {t t' : Transition T N} : machine.Discovers t → machine.Discovers t' →
    0 < t.target → t.target < t'.target → t.Precedes t'

theorem canonical_of_confined (hc : rule.Confined) (hk : kernel.isEmpty = false) :
    (build rule kernel).Canonical rule kernel where
  exists_first := lt_of_getElem?_kernels (getElem?_kernels_zero hk)
  first := items_zero hc hk
  distinct := by
    intro i j hi hj he
    obtain ⟨own, hi⟩ := exists_kernel_of_lt hi
    obtain ⟨other, hj⟩ := exists_kernel_of_lt hj
    rw [items_build hi, items_build hj] at he
    have same := eq_of_closure_eq hc hk (List.mem_of_getElem? hi) (List.mem_of_getElem? hj) he
    rw [← idxOf_kernels hi, ← idxOf_kernels hj, same]
  leaves := by
    intro i s hi
    obtain ⟨own, hi⟩ := exists_kernel_of_lt hi
    rw [items_build hi, ← mem_nextSymbols_iff, next?_build hi]
    split
    · rename_i hs
      exact ⟨fun _ => hs, fun _ => ⟨_, rfl⟩⟩
    · rename_i hs
      exact ⟨nofun, fun h => absurd h hs⟩
  enters h := ⟨lt_of_next?_build hc hk h, items_of_next? hc hk h⟩
  reached := exists_follow? hc hk
  discovered := by
    intro j hpos hj
    obtain ⟨i, hi, s, hn⟩ := exists_lt_of_pos hk hpos hj
    obtain ⟨t, ht, target, source⟩ := exists_discovers hn
    exact ⟨t, ht, target, Nat.lt_of_le_of_lt source hi⟩
  numbered := by
    intro t t' ht ht' hpos hlt
    have different : (t.source, t.symbol) ≠ (t'.source, t'.symbol) := by
      intro he
      obtain ⟨source, symbol⟩ := Prod.mk.inj he
      have enters := ht.enters
      rw [source, symbol, ht'.enters] at enters
      exact Nat.ne_of_gt hlt (Option.some.inj enters)
    refine (Transition.precedes_or_precedes different).resolve_right fun before => ?_
    have := target_lt_target hc hk ht ht'.enters hpos (Nat.lt_trans hpos hlt) before
    omega

end Machine

end BottomUp
