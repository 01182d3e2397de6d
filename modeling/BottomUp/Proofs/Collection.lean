import BottomUp.Automaton.Path
import BottomUp.Proofs.Closure
import Mathlib.Data.List.Sublists

/-!
# The states of an automaton

A state is the closure of its kernel, and the kernels are what the search finds.  Every
item that can come up is from the given kernel or has its dot within a right-hand side and
a possible lookahead.  So every kernel is a part of one finite list of items, and there
are as many layers as parts.  Hence the search misses no kernel (`mem_kernels`).

The rest is read off that.  State 0 is the closure of the given kernel (`items_zero`).
There is a transition on each symbol right of a dot (`exists_next?`), and it leads to the
goto of the state (`items_of_next?`).  What holds of state 0 and is kept by gotos holds of
every state (`items_induction`).
-/

namespace BottomUp

variable {T N V Λ : Type} {g : Grammar T N V}

/-- The search begins with its seeds. -/
theorem reach_eq_append {α : Type} [Ordered α] (succ : α → List α) (layers : Nat)
    (seeds : List α) : ∃ later, reach succ layers seeds = fresh .empty seeds ++ later := by
  have : ∀ (layers : Nat) (found : SortedSet α) (latest : List α),
      ∃ later, explore succ layers found latest = latest ++ later
    | 0, _, latest => ⟨[], (List.append_nil latest).symm⟩
    | layers + 1, found, latest => by
        rw [explore]
        split
        · exact ⟨[], (List.append_nil latest).symm⟩
        · exact ⟨_, rfl⟩
  exact this layers _ _

theorem Item.exists_of_next? {i : Item Λ} {s : Symbol T N} (h : i.next? g = some s) :
    ∃ p, g.productions[i.production]? = some p ∧ p.rhs[i.dot]? = some s := by
  obtain ⟨rest, hr⟩ := List.head?_eq_some_iff.mp h
  obtain ⟨p, hp, _⟩ := Item.exists_of_rest hr
  refine ⟨p, hp, ?_⟩
  rw [Item.next?, Item.rest, Grammar.rhs_of_getElem? hp, List.head?_drop] at h
  exact h

theorem Item.next?_of_getElem? {i : Item Λ} {s : Symbol T N} {p : Production T N V}
    (hp : g.productions[i.production]? = some p) (hs : p.rhs[i.dot]? = some s) :
    i.next? g = some s := by
  rw [Item.next?, Item.rest, Grammar.rhs_of_getElem? hp, List.head?_drop, hs]

namespace ItemSet

/-! ## All items that can come up -/

theorem mem_dots {p d : Nat} :
    (p, d) ∈ dots g ↔
      ∃ production, g.productions[p]? = some production ∧ d ≤ production.rhs.length := by
  simp only [dots, List.mem_flatMap, List.mem_map, List.mem_range, Prod.exists, Prod.mk.injEq,
    Grammar.mem_numbered, Nat.lt_succ_iff]
  constructor
  · rintro ⟨_, production, hp, _, hd, rfl, rfl⟩
    exact ⟨production, hp, hd⟩
  · rintro ⟨production, hp, hd⟩
    exact ⟨p, production, hp, d, hd, rfl, rfl⟩

variable [Ordered N] [Ordered Λ]

/-- The given items and those with a dot within a right-hand side and a possible
lookahead. -/
def possibleItems (rule : LookaheadRule g Λ) (kernel : ItemSet Λ) : List (Item Λ) :=
  kernel.toList ++ (dots g).flatMap fun (p, d) => (aheads rule kernel).map fun a => ⟨p, d, a⟩

variable {rule : LookaheadRule g Λ} {kernel items : ItemSet Λ}

theorem length_possibleItems : (possibleItems rule kernel).length = itemBound rule kernel := by
  rw [possibleItems, List.length_append, SortedSet.length_toList, itemBound]
  exact congrArg _ (length_flatMap_aheads (fun e a => (⟨e.1, e.2, a⟩ : Item Λ)) (dots g))

theorem mem_possibleItems_of_dot {i : Item Λ} (hd : (i.production, i.dot) ∈ dots g)
    (ha : i.ahead ∈ aheads rule kernel) : i ∈ possibleItems rule kernel :=
  List.mem_append_right _ <| List.mem_flatMap.mpr ⟨_, hd, List.mem_map.mpr ⟨_, ha, rfl⟩⟩

theorem ahead_of_mem_possibleItems {i : Item Λ} (h : i ∈ possibleItems rule kernel) :
    i.ahead ∈ aheads rule kernel := by
  rcases List.mem_append.mp h with h | h
  · exact List.mem_append_right _ (List.mem_map.mpr ⟨i, h, rfl⟩)
  · obtain ⟨_, _, h⟩ := List.mem_flatMap.mp h
    obtain ⟨a, ha, rfl⟩ := List.mem_map.mp h
    exact ha

/-- All items of the set can come up from the kernel. -/
def Possible (rule : LookaheadRule g Λ) (kernel items : ItemSet Λ) : Prop :=
  ∀ i ∈ items, i ∈ possibleItems rule kernel

theorem possible_self : Possible rule kernel kernel :=
  fun _ h => List.mem_append_left _ (SortedSet.mem_toList.mpr h)

theorem Possible.closure (hc : rule.Confined) (h : Possible rule kernel items) :
    Possible rule kernel (closure rule items) := by
  intro i hi
  replace hi := (mem_closure_iff hc).mp hi
  induction hi with
  | given hi => exact h _ hi
  | @meet i n rest b p _ hr hb hp ih =>
      obtain ⟨production, hp, _⟩ := Grammar.mem_alternatives.mp hp
      refine mem_possibleItems_of_dot (mem_dots.mpr ⟨production, hp, Nat.zero_le _⟩) ?_
      exact mem_aheads_of_inherit hc hr (ahead_of_mem_possibleItems ih) hb

/-- All sets of items that can come up. -/
def possibleSets (rule : LookaheadRule g Λ) (kernel : ItemSet Λ) : List (ItemSet Λ) :=
  (possibleItems rule kernel).sublists.map .ofList

theorem length_possibleSets :
    (possibleSets rule kernel).length = Nat.pow 2 (itemBound rule kernel) := by
  rw [possibleSets, List.length_map, List.length_sublists, length_possibleItems]
  rfl

theorem mem_possibleSets (h : Possible rule kernel items) : items ∈ possibleSets rule kernel := by
  refine List.mem_map.mpr ⟨(possibleItems rule kernel).filter (· ∈ items), ?_, ?_⟩
  · exact List.mem_sublists.mpr List.filter_sublist
  · refine SortedSet.ext fun i => ?_
    rw [SortedSet.mem_ofList, List.mem_filter, decide_eq_true_eq]
    exact ⟨fun h => h.2, fun hi => ⟨h i hi, hi⟩⟩

theorem possible_of_mem_possibleSets (h : items ∈ possibleSets rule kernel) :
    Possible rule kernel items := by
  obtain ⟨l, hl, rfl⟩ := List.mem_map.mp h
  intro i hi
  exact (List.mem_sublists.mp hl).mem (SortedSet.mem_ofList.mp hi)

/-! ## Kernels -/

theorem closure_closure (hc : rule.Confined) :
    closure rule (closure rule items) = closure rule items := by
  refine SortedSet.ext fun i => ⟨fun h => ?_, mem_closure_of_mem hc⟩
  replace h := (mem_closure_iff hc).mp h
  induction h with
  | given h => exact h
  | meet _ hr hb hp ih => exact mem_closure_of_rest hc ih hr hb hp

/-- A closed set is the closure of its kernel. -/
theorem closure_kernelOf (hc : rule.Confined) :
    closure rule (kernelOf rule (closure rule items)) = closure rule items := by
  unfold kernelOf
  simp only []
  split
  · rename_i h
    exact h
  · exact closure_closure hc

theorem kernelOf_subset {i : Item Λ} (h : i ∈ kernelOf rule items) : i ∈ items := by
  unfold kernelOf at h
  simp only [] at h
  split at h
  · exact (SortedSet.mem_filter.mp h).1
  · exact h

variable [Ordered T]

theorem mem_nextSymbols {items : ItemSet Λ} {s : Symbol T N} :
    s ∈ nextSymbols g items ↔ ∃ i ∈ items, i.next? g = some s := by
  simp [nextSymbols]

theorem exits_eq (items : ItemSet Λ) :
    exits g items = (nextSymbols g items).toList.map fun s => (s, advancePast g items s) := by
  have keys : (items.toList.filterMap fun i => (i.next? g).map fun s => (s, i.advance)).map
      Prod.fst = items.toList.filterMap (Item.next? g) := by
    rw [List.map_filterMap]
    congr
    funext i
    cases i.next? g <;> rfl
  rw [exits, SortedMap.toList_gather, List.map_map, keys]
  refine List.map_congr_left fun s _ => Prod.ext rfl (SortedSet.ext fun i => ?_)
  simp only [Function.comp_apply, SortedSet.mem_ofList, List.mem_filterMap, mem_advancePast,
    SortedSet.mem_toList, Option.map_eq_some_iff]
  constructor
  · rintro ⟨_, ⟨j, hj, s', hs', rfl⟩, h⟩
    split at h
    · rename_i he
      cases h
      exact ⟨j, hj, he ▸ hs', rfl⟩
    · cases h
  · rintro ⟨j, hj, hs, rfl⟩
    exact ⟨(s, j.advance), ⟨j, hj, s, hs, rfl⟩, if_pos rfl⟩

theorem Possible.advancePast (h : Possible rule kernel items) (s : Symbol T N) :
    Possible rule kernel (advancePast g items s) := by
  intro i hi
  obtain ⟨j, hj, hs, rfl⟩ := mem_advancePast.mp hi
  obtain ⟨p, hp, hs⟩ := Item.exists_of_next? hs
  have : j.dot < p.rhs.length := (List.getElem?_eq_some_iff.mp hs).1
  refine mem_possibleItems_of_dot (mem_dots.mpr ⟨p, hp, this⟩) ?_
  show j.ahead ∈ aheads rule kernel
  exact ahead_of_mem_possibleItems (h j hj)

/-- The kernels of the states built from a kernel, in the order of their numbers. -/
def kernels (rule : LookaheadRule g Λ) (kernel : ItemSet Λ) : List (ItemSet Λ) :=
  (collection rule kernel).map Prod.fst

theorem nextKernels_eq (rule : LookaheadRule g Λ) (own : ItemSet Λ) :
    nextKernels rule own =
      (nextSymbols g (closure rule own)).toList.map (advancePast g (closure rule own)) := by
  rw [nextKernels, expand, exits_eq, List.map_map]
  rfl

theorem mem_nextKernels {own next : ItemSet Λ} :
    next ∈ nextKernels rule own ↔
      ∃ s ∈ nextSymbols g (closure rule own), advancePast g (closure rule own) s = next := by
  rw [nextKernels_eq, List.mem_map]
  simp only [SortedSet.mem_toList]

theorem kernels_eq (hk : kernel.isEmpty = false) :
    kernels rule kernel =
      reach (nextKernels rule) (Nat.pow 2 (itemBound rule kernel))
        [kernelOf rule (closure rule kernel)] := by
  rw [kernels, map_fst_collection, hk]
  rfl

theorem mem_kernels (hc : rule.Confined) (hk : kernel.isEmpty = false) {own : ItemSet Λ} :
    own ∈ kernels rule kernel ↔
      Generated (nextKernels rule) [kernelOf rule (closure rule kernel)] own := by
  rw [kernels_eq hk]
  refine mem_reach_iff (u := possibleSets rule kernel) ?_ ?_ (Nat.le_of_eq length_possibleSets)
  · intro own h
    rw [List.mem_singleton.mp h]
    exact mem_possibleSets fun i hi => possible_self.closure hc i (kernelOf_subset hi)
  · intro own h next hn
    obtain ⟨s, _, rfl⟩ := mem_nextKernels.mp hn
    exact mem_possibleSets (((possible_of_mem_possibleSets h).closure hc).advancePast s)

/-- The search for the states misses nothing. -/
theorem nextKernels_mem_kernels (hc : rule.Confined) (hk : kernel.isEmpty = false) :
    ∀ own ∈ kernels rule kernel, ∀ next ∈ nextKernels rule own, next ∈ kernels rule kernel :=
  fun _ ho _ hn => (mem_kernels hc hk).mpr (((mem_kernels hc hk).mp ho).step hn)

theorem getElem?_kernels_zero (hk : kernel.isEmpty = false) :
    (kernels rule kernel)[0]? = some (kernelOf rule (closure rule kernel)) := by
  rw [kernels_eq hk]
  obtain ⟨later, h⟩ := reach_eq_append (nextKernels rule) (Nat.pow 2 (itemBound rule kernel))
    [kernelOf rule (closure rule kernel)]
  rw [h]
  simp [fresh]

theorem getElem?_idxOf_kernels {own : ItemSet Λ} (h : own ∈ kernels rule kernel) :
    (kernels rule kernel)[(kernels rule kernel).idxOf own]? = some own :=
  List.getElem?_idxOf h

theorem idxOf_kernels {own : ItemSet Λ} {i : Nat} (h : (kernels rule kernel)[i]? = some own) :
    (kernels rule kernel).idxOf own = i := by
  obtain ⟨hi, rfl⟩ := List.getElem?_eq_some_iff.mp h
  exact (nodup_kernels rule kernel).idxOf_getElem i hi

end ItemSet

/-! ## States and transitions -/

namespace Machine

open ItemSet

variable [Ordered T] [Ordered N] [Ordered Λ] {rule : LookaheadRule g Λ} {kernel : ItemSet Λ}

/-- The state of a kernel, given the list of all kernels. -/
def stateOf (rule : LookaheadRule g Λ) (all : List (ItemSet Λ)) (own : ItemSet Λ) : State T N Λ where
  items := closure rule own
  transitions := .ofList <| (nextSymbols g (closure rule own)).toList.map fun s =>
    (s, all.idxOf (advancePast g (closure rule own) s))

theorem states_build (rule : LookaheadRule g Λ) (kernel : ItemSet Λ) :
    (build rule kernel).states =
      (kernels rule kernel).map (stateOf rule (kernels rule kernel)) := by
  rw [build, kernels, List.map_map]
  refine List.map_congr_left fun state h => ?_
  have : state = (state.1, expand rule state.1) := Prod.ext rfl (snd_of_mem_collection h)
  rw [this]
  simp [stateOf, expand, exits_eq, Function.comp_def]

theorem getElem?_states_build (i : Nat) :
    (build rule kernel).states[i]? =
      (kernels rule kernel)[i]?.map (stateOf rule (kernels rule kernel)) := by
  rw [states_build, List.getElem?_map]

theorem items_build {i : Nat} {own : ItemSet Λ} (h : (kernels rule kernel)[i]? = some own) :
    (build rule kernel).items i = closure rule own := by
  rw [items, getElem?_states_build, h]
  rfl

theorem exists_kernel_of_lt {i : Nat} (h : i < (build rule kernel).states.length) :
    ∃ own, (kernels rule kernel)[i]? = some own := by
  rw [states_build, List.length_map] at h
  exact ⟨_, List.getElem?_eq_getElem h⟩

theorem lt_of_getElem?_kernels {i : Nat} {own : ItemSet Λ}
    (h : (kernels rule kernel)[i]? = some own) : i < (build rule kernel).states.length := by
  rw [states_build, List.length_map]
  exact (List.getElem?_eq_some_iff.mp h).1

theorem lt_of_mem_items {machine : Machine T N Λ} {i : Nat} {item : Item Λ}
    (h : item ∈ machine.items i) : i < machine.states.length := by
  unfold items at h
  split at h
  · rename_i hi
    exact (List.getElem?_eq_some_iff.mp hi).1
  · exact absurd h (SortedSet.not_mem_empty item)

theorem lt_of_next? {machine : Machine T N Λ} {i j : Nat} {s : Symbol T N}
    (h : machine.next? i s = some j) : i < machine.states.length := by
  obtain ⟨state, hi, _⟩ := Option.bind_eq_some_iff.mp h
  exact (List.getElem?_eq_some_iff.mp hi).1

theorem next?_build {i : Nat} {s : Symbol T N} {own : ItemSet Λ}
    (h : (kernels rule kernel)[i]? = some own) :
    (build rule kernel).next? i s =
      if s ∈ nextSymbols g (closure rule own) then
        some ((kernels rule kernel).idxOf (advancePast g (closure rule own) s))
      else none := by
  rw [next?, getElem?_states_build, h]
  simp only [Option.map_some, Option.bind_some, stateOf, SortedMap.get?_ofList_map,
    SortedSet.mem_toList]

/-- There is a transition on each symbol right of a dot. -/
theorem exists_next? {i : Nat} {item : Item Λ} {s : Symbol T N}
    (hi : item ∈ (build rule kernel).items i) (hs : item.next? g = some s) :
    ∃ j, (build rule kernel).next? i s = some j := by
  obtain ⟨own, h⟩ := exists_kernel_of_lt (lt_of_mem_items hi)
  rw [items_build h] at hi
  exact ⟨_, (next?_build h).trans (if_pos (mem_nextSymbols.mpr ⟨item, hi, hs⟩))⟩

/-- A transition goes on a symbol right of a dot, from a kernel to the next. -/
theorem kernel_of_next? (hc : rule.Confined) (hk : kernel.isEmpty = false) {i j : Nat}
    {s : Symbol T N} (h : (build rule kernel).next? i s = some j) :
    ∃ own, (kernels rule kernel)[i]? = some own ∧ s ∈ nextSymbols g (closure rule own) ∧
      (kernels rule kernel)[j]? = some (advancePast g (closure rule own) s) := by
  obtain ⟨own, hi⟩ := exists_kernel_of_lt (lt_of_next? h)
  rw [next?_build hi] at h
  split at h
  · rename_i hs
    cases h
    refine ⟨own, hi, hs, getElem?_idxOf_kernels ?_⟩
    exact nextKernels_mem_kernels hc hk own (List.mem_of_getElem? hi) _
      (mem_nextKernels.mpr ⟨s, hs, rfl⟩)
  · cases h

theorem items_of_next? (hc : rule.Confined) (hk : kernel.isEmpty = false) {i j : Nat}
    {s : Symbol T N} (h : (build rule kernel).next? i s = some j) :
    (build rule kernel).items j = goto rule ((build rule kernel).items i) s := by
  obtain ⟨own, hi, _, hj⟩ := kernel_of_next? hc hk h
  rw [items_build hi, items_build hj, goto]

theorem exists_mem_of_next? (hc : rule.Confined) (hk : kernel.isEmpty = false) {i j : Nat}
    {s : Symbol T N} (h : (build rule kernel).next? i s = some j) :
    ∃ item ∈ (build rule kernel).items i, item.next? g = some s := by
  obtain ⟨own, hi, hs, _⟩ := kernel_of_next? hc hk h
  rw [items_build hi]
  exact mem_nextSymbols.mp hs

theorem lt_of_next?_build (hc : rule.Confined) (hk : kernel.isEmpty = false) {i j : Nat}
    {s : Symbol T N} (h : (build rule kernel).next? i s = some j) :
    j < (build rule kernel).states.length := by
  obtain ⟨_, _, _, hj⟩ := kernel_of_next? hc hk h
  exact lt_of_getElem?_kernels hj

theorem items_zero (hc : rule.Confined) (hk : kernel.isEmpty = false) :
    (build rule kernel).items 0 = closure rule kernel := by
  rw [items_build (getElem?_kernels_zero hk), closure_kernelOf hc]

/-- Every state but state 0 is entered by a transition. -/
theorem eq_zero_or_exists_next? (hc : rule.Confined) (hk : kernel.isEmpty = false) {j : Nat}
    (h : j < (build rule kernel).states.length) :
    j = 0 ∨ ∃ i s, (build rule kernel).next? i s = some j := by
  obtain ⟨own, hj⟩ := exists_kernel_of_lt h
  cases (mem_kernels hc hk).mp (List.mem_of_getElem? hj) with
  | seed h =>
      rw [List.mem_singleton] at h
      subst h
      exact .inl ((idxOf_kernels hj).symm.trans (idxOf_kernels (getElem?_kernels_zero hk)))
  | @step before _ hb hn =>
      obtain ⟨s, hs, rfl⟩ := mem_nextKernels.mp hn
      have hi := getElem?_idxOf_kernels ((mem_kernels hc hk).mpr hb)
      refine .inr ⟨(kernels rule kernel).idxOf before, s, ?_⟩
      rw [next?_build hi, if_pos hs, idxOf_kernels hj]

/-- What holds of state 0 and is kept by gotos holds of every state. -/
theorem items_induction (hc : rule.Confined) (hk : kernel.isEmpty = false)
    {P : ItemSet Λ → Prop} (zero : P (closure rule kernel))
    (step : ∀ items s, P items → P (goto rule items s)) {i : Nat}
    (h : i < (build rule kernel).states.length) : P ((build rule kernel).items i) := by
  obtain ⟨own, hi⟩ := exists_kernel_of_lt h
  rw [items_build hi]
  have generated := (mem_kernels hc hk).mp (List.mem_of_getElem? hi)
  clear hi h
  induction generated with
  | seed h =>
      rw [List.mem_singleton.mp h, closure_kernelOf hc]
      exact zero
  | step _ hs ih =>
      obtain ⟨s, _, rfl⟩ := mem_nextKernels.mp hs
      exact step _ s ih

end Machine

end BottomUp
