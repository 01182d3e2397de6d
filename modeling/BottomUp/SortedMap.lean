import BottomUp.SortedSet
import Std.Data.ExtTreeMap

/-!
# Sorted maps

A finite map from an ordered type is held in a balanced search tree.  Trees with the same
entries are identified, so a map has one representation: maps with the same look-ups are
equal (`SortedMap.ext`).  The rows of a parse table and the transitions of a state are
sorted maps.

The view of a map is look-up: `get?_insert` says what an insertion does to it.  `toList`
lists the entries, and `sorted` says that their keys ascend strictly.

Pairs may also be gathered by key.  What a gathered map holds for a key are the values
that the list pairs with it, in their order (`get?_gather`), so whatever is asked for
many keys of one list is found without going through the list again.
-/

namespace BottomUp

open Ordered (Before)

/-- A finite map, held as a search tree. -/
structure SortedMap (κ β : Type) [Ordered κ] where
  /-- The entries. -/
  tree : Std.ExtTreeMap κ β

namespace SortedMap

variable {κ β : Type} [Ordered κ]

/-! ## Operations -/

/-- The map without entries. -/
def empty : SortedMap κ β := ⟨∅⟩

instance : EmptyCollection (SortedMap κ β) := ⟨empty⟩
instance : Inhabited (SortedMap κ β) := ⟨empty⟩

/-- The entries in ascending order of their keys. -/
def toList (m : SortedMap κ β) : List (κ × β) := m.tree.toList

/-- The value at a key. -/
def get? (m : SortedMap κ β) (k : κ) : Option β := m.tree[k]?

/-- The map with a value set at a key. -/
def insert (m : SortedMap κ β) (k : κ) (b : β) : SortedMap κ β := ⟨m.tree.insert k b⟩

/-- The entries of a list.  Of several with one key the last stays. -/
def ofList (es : List (κ × β)) : SortedMap κ β := es.foldl (fun m e => m.insert e.1 e.2) empty

/-- The values that a list pairs with each key, in their order. -/
def gather : List (κ × β) → SortedMap κ (List β)
  | [] => empty
  | (k, b) :: es =>
      let later := gather es
      later.insert k (b :: (later.get? k).getD [])

/-! ## Look-up -/

@[simp] theorem get?_empty (k : κ) : (empty : SortedMap κ β).get? k = none :=
  Std.ExtTreeMap.getElem?_empty

/-- What an insertion does to a look-up. -/
theorem get?_insert (m : SortedMap κ β) (k k' : κ) (b : β) :
    (m.insert k b).get? k' = if k' = k then some b else m.get? k' := by
  by_cases h : k' = k
  · subst h
    rw [if_pos rfl]
    exact Std.ExtTreeMap.getElem?_insert_self
  · rw [if_neg h]
    refine Std.ExtTreeMap.getElem?_insert.trans (if_neg fun he => h ?_)
    exact (Ordered.compare_eq_iff.mp he).symm

theorem get?_insert_self (m : SortedMap κ β) (k : κ) (b : β) : (m.insert k b).get? k = some b := by
  rw [get?_insert, if_pos rfl]

theorem get?_insert_of_ne (m : SortedMap κ β) {k k' : κ} (h : k' ≠ k) (b : β) :
    (m.insert k b).get? k' = m.get? k' := by
  rw [get?_insert, if_neg h]

theorem get?_eq_some_iff {m : SortedMap κ β} {k : κ} {b : β} :
    m.get? k = some b ↔ (k, b) ∈ m.toList :=
  Std.ExtTreeMap.mem_toList_iff_getElem?_eq_some.symm

/-- Each key is listed strictly before the greater ones. -/
theorem sorted (m : SortedMap κ β) : m.toList.Pairwise fun e e' => Before e.1 e'.1 :=
  Std.ExtTreeMap.ordered_keys_toList

@[ext] theorem ext {m m' : SortedMap κ β} (h : ∀ k, m.get? k = m'.get? k) : m = m' :=
  congrArg mk (Std.ExtTreeMap.ext_getElem? h)

theorem toList_inj {m m' : SortedMap κ β} : m.toList = m'.toList ↔ m = m' :=
  Std.ExtTreeMap.toList_inj.trans ⟨fun h => congrArg mk h, congrArg tree⟩

/-- A map lists what it holds for ascending keys, if all its keys are among them. -/
theorem toList_eq_filterMap {m : SortedMap κ β} {ks : List κ} (hs : ks.Pairwise Before)
    (h : ∀ k, (m.get? k).isSome = true → k ∈ ks) :
    m.toList = ks.filterMap fun k => (m.get? k).map fun b => (k, b) := by
  refine eq_of_mem_iff (fun h => Before.asymm h) m.sorted ?_ ?_
  · refine List.pairwise_filterMap.mpr (hs.imp fun hb e he e' he' => ?_)
    obtain ⟨_, _, rfl⟩ := Option.map_eq_some_iff.mp he
    obtain ⟨_, _, rfl⟩ := Option.map_eq_some_iff.mp he'
    exact hb
  · intro (k, b)
    simp only [← get?_eq_some_iff, List.mem_filterMap, Option.map_eq_some_iff, Prod.mk.injEq]
    constructor
    · intro hk
      exact ⟨k, h k (hk ▸ rfl), b, hk, rfl, rfl⟩
    · intro ⟨k', _, b', hk, he, he'⟩
      rwa [← he, ← he']

instance [DecidableEq β] : DecidableEq (SortedMap κ β) := fun _ _ => decidable_of_iff _ toList_inj

/-! ## Entries of a list -/

/-- Insertions hide what a map held before. -/
theorem get?_foldl_insert (k : κ) : ∀ (es : List (κ × β)) (m : SortedMap κ β),
    (es.foldl (fun m e => m.insert e.1 e.2) m).get? k = ((ofList es).get? k).or (m.get? k)
  | [], m => by simp [ofList]
  | e :: es, m => by
      rw [ofList, List.foldl_cons, List.foldl_cons, get?_foldl_insert k es,
        get?_foldl_insert k es (insert empty _ _), get?_insert, get?_insert, get?_empty,
        Option.or_assoc]
      split
      · rfl
      · rw [Option.none_or]

/-- Of two lists of entries the later one counts first. -/
theorem get?_ofList_append (es es' : List (κ × β)) (k : κ) :
    (ofList (es ++ es')).get? k = ((ofList es').get? k).or ((ofList es).get? k) := by
  rw [ofList, List.foldl_append, get?_foldl_insert]
  rfl

/-- The entry at the front of a list counts if no later one does. -/
theorem get?_ofList_cons (e : κ × β) (es : List (κ × β)) (k : κ) :
    (ofList (e :: es)).get? k = ((ofList es).get? k).or (if k = e.1 then some e.2 else none) := by
  rw [ofList, List.foldl_cons, get?_foldl_insert, get?_insert, get?_empty]

/-- Every value that a map of listed entries holds is in the list. -/
theorem mem_of_get?_ofList {k : κ} {b : β} : ∀ {es : List (κ × β)},
    (ofList es).get? k = some b → (k, b) ∈ es
  | [], h => by simp [ofList] at h
  | e :: es, h => by
      rw [get?_ofList_cons] at h
      rcases Option.or_eq_some_iff.mp h with h | ⟨_, h⟩
      · exact List.mem_cons_of_mem _ (mem_of_get?_ofList h)
      · split at h
        · rename_i hk
          cases h
          exact hk ▸ List.mem_cons_self
        · cases h

/-- A map that lists the values of a function holds them for the listed keys. -/
theorem get?_ofList_map {f : κ → β} {k : κ} : ∀ ks : List κ,
    (ofList (ks.map fun k => (k, f k))).get? k = if k ∈ ks then some (f k) else none
  | [] => by simp [ofList]
  | k' :: ks => by
      rw [List.map_cons, get?_ofList_cons, get?_ofList_map ks]
      by_cases hk : k = k'
      · subst hk
        by_cases hm : k ∈ ks
        · simp [hm]
        · simp [hm]
      · simp [hk]

/-- Gathering keeps for each key the values paired with it. -/
theorem get?_gather (k : κ) : ∀ es : List (κ × β),
    ((gather es).get? k).getD [] = es.filterMap fun e => if e.1 = k then some e.2 else none
  | [] => by simp [gather]
  | (k', b) :: es => by
      rw [gather, get?_insert, List.filterMap_cons, ← get?_gather k es]
      by_cases h : k = k'
      · simp [h]
      · simp [h, Ne.symm h]

/-- A gathered map has the keys of its list. -/
theorem get?_gather_eq_none_iff {k : κ} : ∀ {es : List (κ × β)},
    (gather es).get? k = none ↔ ∀ e ∈ es, e.1 ≠ k
  | [] => by simp [gather]
  | (k', b) :: es => by
      rw [gather, get?_insert, List.forall_mem_cons, ← get?_gather_eq_none_iff]
      by_cases h : k = k'
      · simp [h]
      · simp [h, Ne.symm h]

/-- What a gathered map lists: the keys in ascending order, each with its values. -/
theorem toList_gather (es : List (κ × β)) :
    (gather es).toList = (SortedSet.ofList (es.map Prod.fst)).toList.map fun k =>
      (k, es.filterMap fun e => if e.1 = k then some e.2 else none) := by
  refine eq_of_mem_iff (fun h => Before.asymm h) (sorted _) ?_ ?_
  · exact List.pairwise_map.mpr (SortedSet.sorted _)
  · intro (k, bs)
    have value := get?_gather k es
    have key : (gather es).get? k = none ↔ ∀ e ∈ es, e.1 ≠ k := get?_gather_eq_none_iff
    simp only [← get?_eq_some_iff, List.mem_map, SortedSet.mem_toList, SortedSet.mem_ofList,
      Prod.mk.injEq]
    constructor
    · intro h
      rw [h] at value key
      obtain ⟨e, he, hk⟩ : ∃ e ∈ es, e.1 = k := by simpa using key
      exact ⟨k, ⟨e, he, hk⟩, rfl, value.symm⟩
    · rintro ⟨k', ⟨e, he, hk⟩, rfl, rfl⟩
      cases h : (gather es).get? k' with
      | none => exact absurd hk (key.mp h e he)
      | some bs => rw [← value, h, Option.getD_some]

end SortedMap

end BottomUp
