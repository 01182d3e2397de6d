import BottomUp.Proofs.Canonical
import BottomUp.Proofs.LeastClosures
import Mathlib.Logic.Function.Basic

/-!
# Discovering states

The states of an automaton can be found in a list that grows while it is gone through.  A round
takes the next state and completes its exits in ascending order of their symbols.  A kernel is
completed by closing it, and a closed set that is not listed yet becomes a state at the end of
the list.  Two books are kept beside it, one with the numbers of the closed sets and one with
the numbers that kernels were closed to, so that nothing is listed twice and no kernel is closed
twice.  Different kernels may have the same closure, so the one book does not replace the other.

What the books say is about some list of kernels (`Holds`).  It is that of the automaton as far
as it is found: to complete a kernel adds it if it is new (`Holds.complete`), so a round adds
what is new among the exits of a state (`Holds.foldl_leave`).  That is the order in which the
kernels of the automaton are listed (`ItemSet.kernels_eq_cons_fresh`).  The list is not gone
through before it has them all (`lt_length_foundAfter`), and then each state has its transitions
(`finds`).
-/

namespace BottomUp

variable {T N V Λ : Type} [Ordered T] [Ordered N] [Ordered Λ]

/-- The states of an automaton as far as they are found. -/
structure Discovery (T N Λ : Type) [Ordered T] [Ordered N] [Ordered Λ] where
  /-- The states, with their transitions if they are gone through. -/
  states : List (State T N Λ) := []
  /-- The numbers of the closed sets. -/
  numbers : SortedMap (ItemSet Λ) Nat := ∅
  /-- The numbers of the states that kernels were closed to. -/
  closed : SortedMap (ItemSet Λ) Nat := ∅
  /-- How many states are gone through. -/
  finished : Nat := 0

namespace Discovery

open ItemSet

variable {g : Grammar T N V}

/-! ## Rounds -/

/-- The number of a closed set.  One that is not listed becomes a state. -/
def enter (d : Discovery T N Λ) (items : ItemSet Λ) : Nat × Discovery T N Λ :=
  match d.numbers.get? items with
  | some i => (i, d)
  | none =>
      (d.states.length,
        { d with
          states := d.states ++ [⟨items, ∅⟩]
          numbers := d.numbers.insert items d.states.length })

/-- The number of the state of a kernel, which is closed if it was not before. -/
def complete (rule : LookaheadRule g Λ) (d : Discovery T N Λ) (kernel : ItemSet Λ) :
    Nat × Discovery T N Λ :=
  match d.closed.get? kernel with
  | some i => (i, d)
  | none =>
      let entered := d.enter (closure rule kernel)
      (entered.1, { entered.2 with closed := entered.2.closed.insert kernel entered.1 })

/-- Complete an exit of a state, and give the state a transition to what that leads to. -/
def leave (rule : LookaheadRule g Λ) (i : Nat) (d : Discovery T N Λ)
    (exit : Symbol T N × ItemSet Λ) : Discovery T N Λ :=
  let completed := d.complete rule exit.2
  { completed.2 with
    states := completed.2.states.modify i fun state =>
      { state with transitions := state.transitions.insert exit.1 completed.1 } }

/-- Go through the next state, if there is one. -/
def round (rule : LookaheadRule g Λ) (d : Discovery T N Λ) : Discovery T N Λ :=
  match d.states[d.finished]? with
  | none => d
  | some state =>
      { (exits g state.items).foldl (leave rule d.finished) d with finished := d.finished + 1 }

/-- Begin with the state of a kernel, and with none if the kernel is empty. -/
def start (rule : LookaheadRule g Λ) (kernel : ItemSet Λ) : Discovery T N Λ :=
  if kernel.isEmpty then {} else (({} : Discovery T N Λ).complete rule kernel).2

/-- An automaton is found in rounds. -/
structure Finds (rule : LookaheadRule g Λ) (kernel : ItemSet Λ) (machine : Machine T N Λ) :
    Prop where
  /-- After a round for each state all are gone through, and they are those of the automaton. -/
  ends : ((round rule)^[machine.states.length] (start rule kernel)).states = machine.states ∧
    ((round rule)^[machine.states.length] (start rule kernel)).finished = machine.states.length
  /-- No state has an item without a production if the kernel has none. -/
  exist : kernel.exists? g = true → ∀ rounds,
    ∀ state ∈ ((round rule)^[rounds] (start rule kernel)).states, state.items.exists? g = true

/-! ## Lists that grow -/

section Fresh

variable {α : Type} [Ordered α] {found all : List α} {a b : α}

/-- What is new in two lists comes behind what is found, first that of the one and then that of
the other. -/
theorem append_fresh_append (as bs : List α) :
    (found ++ fresh (.ofList found) as) ++
        fresh (.ofList (found ++ fresh (.ofList found) as)) bs =
      found ++ fresh (.ofList found) (as ++ bs) := by
  have known : SortedSet.ofList (found ++ fresh (.ofList found) as) =
      (SortedSet.ofList found).insertAll as := by
    refine SortedSet.ext fun b => ?_
    by_cases hb : b ∈ found <;> simp [mem_fresh, hb]
  rw [known, fresh_append, List.append_assoc]

theorem append_fresh_singleton_of_mem (h : a ∈ found) :
    found ++ fresh (.ofList found) [a] = found := by
  rw [fresh_eq_nil, List.append_nil]
  simpa using h

theorem append_fresh_singleton_of_notMem (h : a ∉ found) :
    found ++ fresh (.ofList found) [a] = found ++ [a] := by
  have new : a ∉ SortedSet.ofList found := by simpa using h
  rw [fresh, if_neg new, fresh]

omit [Ordered α] in
theorem getElem?_concat_eq_some_iff {i : Nat} :
    (all ++ [a])[i]? = some b ↔ all[i]? = some b ∨ i = all.length ∧ a = b := by
  grind

omit [Ordered α] in
theorem getElem?_prefix_mono {i : Nat} (known : found <+: all) (h : found[i]? = some a) :
    all[i]? = some a := by
  obtain ⟨rest, rfl⟩ := known
  rw [List.getElem?_append_left (List.getElem?_eq_some_iff.mp h).1, h]

/-- What changes at one place of a list without repetitions. -/
theorem modify_map_eq {β : Type} {f : α → β} {change : β → β} {i : Nat} (distinct : found.Nodup)
    (h : found[i]? = some a) :
    (found.map f).modify i change = found.map fun b => if b = a then change (f b) else f b := by
  refine List.ext_getElem? fun j => ?_
  rw [List.getElem?_modify, List.getElem?_map, List.getElem?_map, Option.map_eq_map,
    Option.map_map]
  refine Option.map_congr fun b hb => ?_
  have same : i = j ↔ b = a := by
    constructor
    · rintro rfl
      exact Option.some.inj (hb.symm.trans h)
    · rintro rfl
      obtain ⟨hi, hi'⟩ := List.getElem?_eq_some_iff.mp h
      obtain ⟨hj, hj'⟩ := List.getElem?_eq_some_iff.mp hb
      exact (distinct.getElem_inj_iff).mp (hi'.trans hj'.symm)
  by_cases hj : i = j <;> simp [hj, ← same]

end Fresh

/-! ## What the books say -/

/-- The books are about the states of some kernels, which have some transitions so far. -/
structure Holds (rule : LookaheadRule g Λ) (d : Discovery T N Λ) (found : List (ItemSet Λ))
    (transitions : ItemSet Λ → SortedMap (Symbol T N) Nat) : Prop where
  states : d.states = found.map fun own => ⟨closure rule own, transitions own⟩
  numbers (items : ItemSet Λ) (i : Nat) :
    d.numbers.get? items = some i ↔ (found.map (closure rule))[i]? = some items
  closed (own : ItemSet Λ) (i : Nat) :
    d.closed.get? own = some i → (found.map (closure rule))[i]? = some (closure rule own)

variable {rule : LookaheadRule g Λ} {kernel own : ItemSet Λ} {d : Discovery T N Λ}
  {found : List (ItemSet Λ)} {transitions : ItemSet Λ → SortedMap (Symbol T N) Nat}

/-- A kernel stands where its closure does. -/
theorem getElem?_found (hc : rule.Confined) (hk : kernel.isEmpty = false)
    (known : found <+: kernels rule kernel) (hm : own ∈ kernels rule kernel) {i : Nat}
    (h : (found.map (closure rule))[i]? = some (closure rule own)) : found[i]? = some own := by
  rw [List.getElem?_map, Option.map_eq_some_iff] at h
  obtain ⟨other, hi, same⟩ := h
  rw [hi, eq_of_closure_eq hc hk (known.subset (List.mem_of_getElem? hi)) hm same]

namespace Holds

/-- To enter the closed set of a kernel adds the kernel, if it is new. -/
theorem enter (hc : rule.Confined) (hk : kernel.isEmpty = false)
    (h : Holds rule d found transitions) (known : found <+: kernels rule kernel)
    (hm : own ∈ kernels rule kernel) (empty : own ∉ found → transitions own = ∅) :
    Holds rule (d.enter (closure rule own)).2 (found ++ fresh (.ofList found) [own]) transitions ∧
      (found ++ fresh (.ofList found) [own])[(d.enter (closure rule own)).1]? = some own := by
  rw [Discovery.enter]
  cases hn : d.numbers.get? (closure rule own) with
  | some i =>
      have hi := getElem?_found hc hk known hm ((h.numbers _ i).mp hn)
      rw [append_fresh_singleton_of_mem (List.mem_of_getElem? hi)]
      exact ⟨h, hi⟩
  | none =>
      have unlisted (i : Nat) : (found.map (closure rule))[i]? ≠ some (closure rule own) := by
        intro listed
        rw [(h.numbers _ i).mpr listed] at hn
        cases hn
      have new : own ∉ found := by
        intro listed
        obtain ⟨i, hi⟩ := List.getElem?_of_mem listed
        exact unlisted i (by rw [List.getElem?_map, hi, Option.map_some])
      have length : d.states.length = found.length := by rw [h.states, List.length_map]
      rw [append_fresh_singleton_of_notMem new, length]
      refine ⟨⟨?_, fun items i => ?_, fun other i hi => ?_⟩, List.getElem?_concat_length⟩
      · rw [h.states, List.map_append, List.map_singleton, empty new]
      · rw [SortedMap.get?_insert, List.map_append, List.map_singleton,
          getElem?_concat_eq_some_iff, List.length_map]
        by_cases same : items = closure rule own
        · subst same
          rw [if_pos rfl, or_iff_right (unlisted i), Option.some.injEq]
          exact ⟨fun he => ⟨he.symm, rfl⟩, fun he => he.1.symm⟩
        · rw [if_neg same, h.numbers, or_iff_left fun he => same he.2.symm]
      · rw [List.map_append]
        exact getElem?_prefix_mono (List.prefix_append _ _) (h.closed other i hi)

/-- A kernel can be noted with the number of the state that it is closed to. -/
theorem note (h : Holds rule d found transitions) {i : Nat}
    (hi : (found.map (closure rule))[i]? = some (closure rule own)) :
    Holds rule { d with closed := d.closed.insert own i } found transitions where
  states := h.states
  numbers := h.numbers
  closed other j hj := by
    rw [SortedMap.get?_insert] at hj
    split at hj
    · rename_i same
      cases hj
      rw [same, hi]
    · exact h.closed other j hj

/-- The books are not about how many states are gone through. -/
theorem finish (h : Holds rule d found transitions) (n : Nat) :
    Holds rule { d with finished := n } found transitions :=
  ⟨h.states, h.numbers, h.closed⟩

/-- To complete a kernel of the automaton adds it, if it is new. -/
theorem complete (hc : rule.Confined) (hk : kernel.isEmpty = false)
    (h : Holds rule d found transitions) (known : found <+: kernels rule kernel)
    (hm : own ∈ kernels rule kernel) (empty : own ∉ found → transitions own = ∅) :
    Holds rule (d.complete rule own).2 (found ++ fresh (.ofList found) [own]) transitions ∧
      (found ++ fresh (.ofList found) [own])[(d.complete rule own).1]? = some own := by
  rw [Discovery.complete]
  cases hn : d.closed.get? own with
  | some i =>
      have hi := getElem?_found hc hk known hm (h.closed own i hn)
      rw [append_fresh_singleton_of_mem (List.mem_of_getElem? hi)]
      exact ⟨h, hi⟩
  | none =>
      obtain ⟨entered, hi⟩ := h.enter hc hk known hm empty
      exact ⟨entered.note (by rw [List.getElem?_map, hi, Option.map_some]), hi⟩

/-- To complete an exit of a listed state adds the kernel that it leads to, if that is new, and
gives the state the transition to it. -/
theorem leave (hc : rule.Confined) (hk : kernel.isEmpty = false)
    (h : Holds rule d found transitions) {i : Nat} {s : Symbol T N} {next : ItemSet Λ}
    (hi : found[i]? = some own) (hm : next ∈ kernels rule kernel)
    (known : found ++ fresh (.ofList found) [next] <+: kernels rule kernel)
    (empty : next ∉ found → transitions next = ∅) :
    Holds rule (leave rule i d (s, next)) (found ++ fresh (.ofList found) [next])
      (Function.update transitions own
        ((transitions own).insert s ((kernels rule kernel).idxOf next))) := by
  obtain ⟨completed, hj⟩ := h.complete hc hk ((List.prefix_append _ _).trans known) hm empty
  have hi' := getElem?_prefix_mono (List.prefix_append found (fresh (.ofList found) [next])) hi
  have index : (kernels rule kernel).idxOf next = (d.complete rule next).1 :=
    idxOf_kernels (getElem?_prefix_mono known hj)
  have distinct := known.sublist.nodup (nodup_kernels rule kernel)
  refine ⟨?_, completed.numbers, completed.closed⟩
  rw [Discovery.leave, completed.states, index]
  refine (modify_map_eq distinct hi').trans (List.map_congr_left fun other _ => ?_)
  by_cases same : other = own
  · simp [same]
  · simp [same]

/-- To complete some exits of a listed state adds what is new among the kernels that they lead
to, and gives the state the transitions to them. -/
theorem foldl_leave (hc : rule.Confined) (hk : kernel.isEmpty = false) {i : Nat} :
    ∀ (exits : List (Symbol T N × ItemSet Λ)) {d : Discovery T N Λ} {found : List (ItemSet Λ)}
      {transitions : ItemSet Λ → SortedMap (Symbol T N) Nat}, Holds rule d found transitions →
      found[i]? = some own → (∀ next ∈ exits.map Prod.snd, next ∈ kernels rule kernel) →
      found ++ fresh (.ofList found) (exits.map Prod.snd) <+: kernels rule kernel →
      (∀ next ∉ found, transitions next = ∅) →
      Holds rule (exits.foldl (Discovery.leave rule i) d)
        (found ++ fresh (.ofList found) (exits.map Prod.snd))
        (Function.update transitions own (exits.foldl
          (fun m e => m.insert e.1 ((kernels rule kernel).idxOf e.2)) (transitions own)))
  | [], d, found, transitions, h, _, _, _, _ => by
      rw [List.foldl_nil, List.foldl_nil, List.map_nil, fresh, List.append_nil,
        Function.update_eq_self]
      exact h
  | (s, next) :: exits, d, found, transitions, h, hi, hm, known, empty => by
      obtain ⟨hn, hm⟩ := List.forall_mem_cons.mp hm
      -- the first exit adds its kernel, and the others what is new behind that
      have split : found ++ fresh (.ofList found) (next :: exits.map Prod.snd) = _ :=
        (append_fresh_append [next] (exits.map Prod.snd)).symm
      replace known : found ++ fresh (.ofList found) (next :: exits.map Prod.snd) <+:
        kernels rule kernel := known
      rw [split] at known
      have first : Holds rule (Discovery.leave rule i d (s, next)) _ _ :=
        h.leave hc hk hi hn ((List.prefix_append _ _).trans known) (empty next)
      have hi' := getElem?_prefix_mono (List.prefix_append found (fresh (.ofList found) [next])) hi
      have rest := foldl_leave hc hk exits first hi' hm known fun other new => by
        have : other ≠ own := fun same => new (same ▸ List.mem_of_getElem? hi')
        rw [Function.update_of_ne this]
        exact empty other fun listed => new (List.mem_append_left _ listed)
      rw [Function.update_self, Function.update_idem, ← split] at rest
      exact rest

end Holds

/-! ## A round for each state -/

/-- The kernels that are found when so many states are gone through. -/
def foundAfter (rule : LookaheadRule g Λ) (kernel : ItemSet Λ) (rounds : Nat) :
    List (ItemSet Λ) :=
  let first := kernelOf rule (closure rule kernel)
  [first] ++ fresh (.ofList [first])
    (((kernels rule kernel).take rounds).flatMap (nextKernels rule))

/-- The transitions of the states that are gone through. -/
def transitionsAfter (rule : LookaheadRule g Λ) (kernel : ItemSet Λ) (rounds : Nat)
    (own : ItemSet Λ) : SortedMap (Symbol T N) Nat :=
  if own ∈ (kernels rule kernel).take rounds then
    (Machine.stateOf rule (kernels rule kernel) own).transitions
  else ∅

theorem foundAfter_prefix_kernels (hc : rule.Confined) (hk : kernel.isEmpty = false) (n : Nat) :
    foundAfter rule kernel n <+: kernels rule kernel := by
  have whole := kernels_eq_cons_fresh hc hk
  have split : (kernels rule kernel).flatMap (nextKernels rule) =
      ((kernels rule kernel).take n).flatMap (nextKernels rule) ++
        ((kernels rule kernel).drop n).flatMap (nextKernels rule) := by
    rw [← List.flatMap_append, List.take_append_drop]
  rw [split, fresh_append] at whole
  exact ⟨_, whole.symm⟩

theorem foundAfter_length (hc : rule.Confined) (hk : kernel.isEmpty = false) :
    foundAfter rule kernel (kernels rule kernel).length = kernels rule kernel := by
  rw [foundAfter, List.take_length]
  exact (kernels_eq_cons_fresh hc hk).symm

theorem take_succ_kernels {n : Nat} (h : (kernels rule kernel)[n]? = some own) :
    (kernels rule kernel).take (n + 1) = (kernels rule kernel).take n ++ [own] := by
  rw [List.take_add_one, h, Option.toList_some]

theorem foundAfter_succ {n : Nat} (h : (kernels rule kernel)[n]? = some own) :
    foundAfter rule kernel (n + 1) =
      foundAfter rule kernel n ++
        fresh (.ofList (foundAfter rule kernel n)) (nextKernels rule own) := by
  rw [foundAfter, foundAfter, take_succ_kernels h, List.flatMap_append, List.flatMap_singleton,
    append_fresh_append]

/-- What is found has all its next kernels in it, if it is gone through.  So it is everything,
since it has the first kernel. -/
theorem lt_length_foundAfter (hc : rule.Confined) (hk : kernel.isEmpty = false) {n : Nat}
    (hn : n < (kernels rule kernel).length) : n < (foundAfter rule kernel n).length := by
  refine Nat.not_le.mp fun short => ?_
  have known := foundAfter_prefix_kernels hc hk n
  have all : ∀ own ∈ kernels rule kernel, own ∈ foundAfter rule kernel n := by
    intro own h
    replace h := (mem_kernels hc hk).mp h
    induction h with
    | seed h => exact List.mem_append_left _ h
    | @step own next _ later ih =>
        rw [List.prefix_iff_eq_take.mp known] at ih
        have gone := List.take_subset_take_left _ short ih
        by_cases first : next ∈ [kernelOf rule (closure rule kernel)]
        · exact List.mem_append_left _ first
        · refine List.mem_append_right _ (mem_fresh.mpr ⟨?_, mt SortedSet.mem_ofList.mp first⟩)
          exact List.mem_flatMap.mpr ⟨own, gone, later⟩
  have := length_le_of_nodup_of_mem (nodup_kernels rule kernel) all
  rw [← kernels] at this
  omega

theorem foldl_exits (rule : LookaheadRule g Λ) (all : List (ItemSet Λ)) (own : ItemSet Λ) :
    (exits g (closure rule own)).foldl (fun m e => m.insert e.1 (all.idxOf e.2)) ∅ =
      (Machine.stateOf rule all own).transitions := by
  have blank : (∅ : SortedMap (Symbol T N) Nat) = .empty := rfl
  simp only [blank, Machine.stateOf, exits_eq, SortedMap.ofList, List.foldl_map]

theorem holds_start (hc : rule.Confined) (hk : kernel.isEmpty = false) :
    Holds rule (start rule kernel) (foundAfter rule kernel 0) (transitionsAfter rule kernel 0) ∧
      (start rule kernel).finished = 0 := by
  have none (items : ItemSet Λ) : (SortedMap.get? ∅ items : Option Nat) = none :=
    SortedMap.get?_empty items
  have blank : Holds rule {} [] (transitionsAfter rule kernel 0) :=
    { states := rfl
      numbers := fun items i => by simp [none]
      closed := fun own i h => by simp [none] at h }
  -- what comes first is the kernel that the automaton takes for the given one
  have listed : kernelOf rule (closure rule kernel) ∈ kernels rule kernel :=
    List.mem_of_getElem? (getElem?_kernels_zero hk)
  obtain ⟨entered, hi⟩ := blank.enter hc hk List.nil_prefix listed fun _ => rfl
  rw [closure_kernelOf hc] at entered hi
  rw [start, hk, if_neg Bool.false_ne_true, complete]
  simp only [none]
  refine ⟨entered.note ?_, ?_⟩
  · rw [List.getElem?_map, hi, Option.map_some, closure_kernelOf hc]
  · rw [enter, none]

/-- The kernels that are gone through are found. -/
theorem take_subset_foundAfter (hc : rule.Confined) (hk : kernel.isEmpty = false) {n : Nat}
    (hn : n < (kernels rule kernel).length) :
    (kernels rule kernel).take n ⊆ foundAfter rule kernel n := by
  rw [List.prefix_iff_eq_take.mp (foundAfter_prefix_kernels hc hk n)]
  exact List.take_subset_take_left _ (Nat.le_of_lt (lt_length_foundAfter hc hk hn))

theorem notMem_take_kernels {n : Nat} (h : (kernels rule kernel)[n]? = some own) :
    own ∉ (kernels rule kernel).take n := by
  intro hm
  have distinct := (List.take_sublist (n + 1) _).nodup (nodup_kernels rule kernel)
  rw [← kernels, take_succ_kernels h] at distinct
  exact (List.nodup_append.mp distinct).2.2 own hm own List.mem_cons_self rfl

theorem transitionsAfter_succ {n : Nat} (h : (kernels rule kernel)[n]? = some own) :
    transitionsAfter rule kernel (n + 1) =
      Function.update (transitionsAfter rule kernel n) own
        (Machine.stateOf rule (kernels rule kernel) own).transitions := by
  funext other
  rw [transitionsAfter, take_succ_kernels h]
  by_cases same : other = own
  · subst same
    rw [Function.update_self, if_pos (List.mem_append_right _ List.mem_cons_self)]
  · rw [Function.update_of_ne same, transitionsAfter]
    simp only [List.mem_append, List.mem_singleton, same, or_false]

/-- What the exits of a state lead to are the next kernels. -/
theorem map_snd_exits (rule : LookaheadRule g Λ) (own : ItemSet Λ) :
    (exits g (closure rule own)).map Prod.snd = nextKernels rule own := by
  simp only [nextKernels, expand]

theorem round_eq {state : State T N Λ} (h : d.states[d.finished]? = some state) :
    round rule d =
      { (exits g state.items).foldl (leave rule d.finished) d with
        finished := d.finished + 1 } := by
  rw [round, h]

/-- A round goes through one more state. -/
theorem Holds.round (hc : rule.Confined) (hk : kernel.isEmpty = false) {n : Nat}
    (h : Holds rule d (foundAfter rule kernel n) (transitionsAfter rule kernel n))
    (hd : d.finished = n) (hn : (kernels rule kernel)[n]? = some own) :
    Holds rule (round rule d) (foundAfter rule kernel (n + 1))
        (transitionsAfter rule kernel (n + 1)) ∧
      (Discovery.round rule d).finished = n + 1 := by
  have inside := (List.getElem?_eq_some_iff.mp hn).1
  have known := foundAfter_prefix_kernels hc hk n
  have hlt := lt_length_foundAfter hc hk inside
  have hi : (foundAfter rule kernel n)[n]? = some own := by
    rw [List.getElem?_eq_getElem hlt, ← hn,
      ← getElem?_prefix_mono known (List.getElem?_eq_getElem hlt)]
  have current : d.states[n]? = some ⟨closure rule own, transitionsAfter rule kernel n own⟩ := by
    rw [h.states, List.getElem?_map, hi, Option.map_some]
  have blank {other : ItemSet Λ} (ho : other ∉ (kernels rule kernel).take n) :
      transitionsAfter rule kernel n other = ∅ := if_neg ho
  have through := h.foldl_leave hc hk (exits g (closure rule own)) hi
    (fun later hl => by
      rw [map_snd_exits] at hl
      exact nextKernels_mem_kernels hc hk own (List.mem_of_getElem? hn) later hl)
    (by
      rw [map_snd_exits, ← foundAfter_succ hn]
      exact foundAfter_prefix_kernels hc hk (n + 1))
    (fun other new => blank fun ho => new (take_subset_foundAfter hc hk inside ho))
  rw [map_snd_exits, ← foundAfter_succ hn, blank (notMem_take_kernels hn), foldl_exits,
    ← transitionsAfter_succ hn] at through
  subst hd
  rw [round_eq current]
  exact ⟨through.finish (d.finished + 1), rfl⟩

/-- After so many rounds so many states are gone through. -/
theorem holds_iterate (hc : rule.Confined) (hk : kernel.isEmpty = false) : ∀ {n : Nat},
    n ≤ (kernels rule kernel).length →
    Holds rule ((round rule)^[n] (start rule kernel)) (foundAfter rule kernel n)
        (transitionsAfter rule kernel n) ∧
      ((round rule)^[n] (start rule kernel)).finished = n
  | 0, _ => holds_start hc hk
  | n + 1, hn => by
      obtain ⟨h, finished⟩ := holds_iterate hc hk (Nat.le_of_succ_le hn)
      rw [Function.iterate_succ_apply']
      exact h.round hc hk finished (List.getElem?_eq_getElem hn)

/-- When all states are gone through, nothing is left to do. -/
theorem iterate_of_le (hc : rule.Confined) (hk : kernel.isEmpty = false) {n : Nat}
    (hn : (kernels rule kernel).length ≤ n) :
    (round rule)^[n] (start rule kernel) =
      (round rule)^[(kernels rule kernel).length] (start rule kernel) := by
  obtain ⟨h, finished⟩ := holds_iterate hc hk (Nat.le_refl (kernels rule kernel).length)
  have done : round rule ((round rule)^[(kernels rule kernel).length] (start rule kernel)) =
      (round rule)^[(kernels rule kernel).length] (start rule kernel) := by
    rw [round, finished, h.states, foundAfter_length hc hk, List.getElem?_map,
      List.getElem?_eq_none (Nat.le_refl _), Option.map_none]
  obtain ⟨more, rfl⟩ := Nat.exists_eq_add_of_le' hn
  rw [Function.iterate_add_apply, Function.iterate_fixed done]

theorem exists_advancePast {items : ItemSet Λ} (s : Symbol T N) (h : items.exists? g = true) :
    (advancePast g items s).exists? g = true := by
  refine List.all_eq_true.mpr fun i hi => ?_
  obtain ⟨j, hj, _, rfl⟩ := mem_advancePast.mp (SortedSet.mem_toList.mp hi)
  exact List.all_eq_true.mp h j (SortedSet.mem_toList.mpr hj)

/-- All items of the automaton have productions, if those of the given kernel do. -/
theorem exists_closure_of_mem_kernels (hc : rule.Confined) (hk : kernel.isEmpty = false)
    (hx : kernel.exists? g = true) (h : own ∈ kernels rule kernel) :
    (closure rule own).exists? g = true := by
  obtain ⟨i, hi⟩ := List.getElem?_of_mem h
  rw [← Machine.items_build hi]
  have step (items : ItemSet Λ) (s : Symbol T N) (hx : items.exists? g = true) :
      (goto rule items s).exists? g = true := exists_of_mem_closure hc (exists_advancePast s hx)
  exact Machine.items_induction hc hk (P := fun items => items.exists? g = true)
    (exists_of_mem_closure hc hx) step (Machine.lt_of_getElem?_kernels hi)

/-- An automaton is found in a round for each of its states. -/
theorem finds (hc : rule.Confined) (hk : kernel.isEmpty = false) :
    Finds rule kernel (Machine.build rule kernel) where
  ends := by
    have length : (Machine.build rule kernel).states.length = (kernels rule kernel).length := by
      rw [Machine.states_build, List.length_map]
    obtain ⟨h, finished⟩ := holds_iterate hc hk (Nat.le_refl (kernels rule kernel).length)
    rw [length]
    refine ⟨?_, finished⟩
    rw [h.states, foundAfter_length hc hk, Machine.states_build]
    refine List.map_congr_left fun own hm => ?_
    rw [transitionsAfter, List.take_length, if_pos hm, Machine.stateOf]
  exist hx rounds state hs := by
    have met {n : Nat} (hn : n ≤ (kernels rule kernel).length)
        (hs : state ∈ ((round rule)^[n] (start rule kernel)).states) :
        state.items.exists? g = true := by
      rw [(holds_iterate hc hk hn).1.states] at hs
      obtain ⟨own, hm, rfl⟩ := List.mem_map.mp hs
      exact exists_closure_of_mem_kernels hc hk hx ((foundAfter_prefix_kernels hc hk n).subset hm)
    rcases Nat.le_total rounds (kernels rule kernel).length with hn | hn
    · exact met hn hs
    · rw [iterate_of_le hc hk hn] at hs
      exact met (Nat.le_refl _) hs

end Discovery

/-- For every grammar and every kernel that is not empty, of LR(0) or of LR(1) items: the
automaton that is built from it is the canonical collection of the kernel.  It is found in a
list that grows while it is gone through, and that ends after a round for each state. -/
theorem Grammar.build_canonical (g : Grammar T N V) :
    (∀ kernel : ItemSet Unit, kernel.isEmpty = false →
      (Machine.build (.lr0 g) kernel).Canonical (.lr0 g) kernel ∧
        Discovery.Finds (.lr0 g) kernel (Machine.build (.lr0 g) kernel)) ∧
    ∀ kernel : ItemSet (Lookahead T), kernel.isEmpty = false →
      (Machine.build (.lr1 g) kernel).Canonical (.lr1 g) kernel ∧
        Discovery.Finds (.lr1 g) kernel (Machine.build (.lr1 g) kernel) :=
  ⟨fun _ hk => ⟨Machine.canonical_of_confined LookaheadRule.confined_lr0 hk,
      Discovery.finds LookaheadRule.confined_lr0 hk⟩,
    fun _ hk => ⟨Machine.canonical_of_confined LookaheadRule.confined_lr1 hk,
      Discovery.finds LookaheadRule.confined_lr1 hk⟩⟩

/-- The kernels may hold items of any productions, with their dots anywhere. -/
theorem Grammar.build_canonical_sums :
    (.ofList [⟨2, 0, ()⟩, ⟨1, 9, ()⟩, ⟨1, 1, ()⟩] : ItemSet Unit).isEmpty = false ∧
    (Machine.build (.lr0 sums) (.ofList [⟨2, 0, ()⟩, ⟨1, 9, ()⟩, ⟨1, 1, ()⟩])).Canonical (.lr0 sums)
      (.ofList [⟨2, 0, ()⟩, ⟨1, 9, ()⟩, ⟨1, 1, ()⟩]) ∧
    Discovery.Finds (.lr0 sums) (.ofList [⟨2, 0, ()⟩, ⟨1, 9, ()⟩, ⟨1, 1, ()⟩])
      (Machine.build (.lr0 sums) (.ofList [⟨2, 0, ()⟩, ⟨1, 9, ()⟩, ⟨1, 1, ()⟩])) ∧
    (.ofList [⟨0, 0, some 7⟩, ⟨2, 4, none⟩] : ItemSet (Lookahead Nat)).isEmpty = false ∧
    (Machine.build (.lr1 sums) (.ofList [⟨0, 0, some 7⟩, ⟨2, 4, none⟩])).Canonical (.lr1 sums)
      (.ofList [⟨0, 0, some 7⟩, ⟨2, 4, none⟩]) ∧
    Discovery.Finds (.lr1 sums) (.ofList [⟨0, 0, some 7⟩, ⟨2, 4, none⟩])
      (Machine.build (.lr1 sums) (.ofList [⟨0, 0, some 7⟩, ⟨2, 4, none⟩])) := by
  obtain ⟨canonical, found⟩ :=
    sums.build_canonical.1 (.ofList [⟨2, 0, ()⟩, ⟨1, 9, ()⟩, ⟨1, 1, ()⟩]) (by decide)
  obtain ⟨canonical', found'⟩ :=
    sums.build_canonical.2 (.ofList [⟨0, 0, some 7⟩, ⟨2, 4, none⟩]) (by decide)
  exact ⟨by decide, canonical, found, by decide, canonical', found'⟩

end BottomUp
