import BottomUp.Order
import Std.Data.ExtTreeSet

/-!
# Sorted sets

A finite set of an ordered type is held in a balanced search tree.  Trees with the same
members are identified, so a set has one representation: sets with the same members are
equal (`SortedSet.ext`), and equality is decided by comparing their sizes and the ascending
lists of their members.  Item sets, alphabets and FIRST sets are sorted sets.

The view of a set is membership: `mem_insert`, `mem_insertAll`, `mem_ofList`, `mem_union`
and `mem_filter` say what each operation does to it.  `toList` lists the members, and
`sorted` says that the list ascends strictly.
-/

namespace BottomUp

open Ordered (Before)

/-- A finite set, held as a search tree. -/
structure SortedSet (α : Type) [Ordered α] where
  /-- The members. -/
  tree : Std.ExtTreeSet α

namespace SortedSet

variable {α : Type} [Ordered α]

instance : Membership α (SortedSet α) := ⟨fun s a => a ∈ s.tree⟩

instance (a : α) (s : SortedSet α) : Decidable (a ∈ s) :=
  inferInstanceAs (Decidable (a ∈ s.tree))

/-! ## Operations -/

/-- The set without members. -/
def empty : SortedSet α := ⟨∅⟩

instance : EmptyCollection (SortedSet α) := ⟨empty⟩
instance : Inhabited (SortedSet α) := ⟨empty⟩

/-- The members in ascending order. -/
def toList (s : SortedSet α) : List α := s.tree.toList

/-- How many members there are. -/
def size (s : SortedSet α) : Nat := s.tree.size

/-- Is the set without members? -/
def isEmpty (s : SortedSet α) : Bool := s.tree.isEmpty

/-- The set with one more member. -/
def insert (s : SortedSet α) (a : α) : SortedSet α := ⟨s.tree.insert a⟩

/-- The set with the values of a list added. -/
def insertAll (s : SortedSet α) (as : List α) : SortedSet α := as.foldl insert s

/-- The values of a list. -/
def ofList (as : List α) : SortedSet α := empty.insertAll as

/-- The members of either set. -/
def union (s t : SortedSet α) : SortedSet α := ⟨s.tree ∪ t.tree⟩

/-- The members that pass a test. -/
def filter (p : α → Bool) (s : SortedSet α) : SortedSet α := ⟨s.tree.filter p⟩

/-! ## Membership -/

@[simp] theorem not_mem_empty (a : α) : ¬ a ∈ (empty : SortedSet α) :=
  Std.ExtTreeSet.not_mem_empty

@[simp] theorem mem_insert {a b : α} {s : SortedSet α} : b ∈ s.insert a ↔ b = a ∨ b ∈ s :=
  Std.ExtTreeSet.mem_insert.trans (or_congr_left (Ordered.compare_eq_iff.trans eq_comm))

@[simp] theorem mem_insertAll {b : α} : ∀ {as : List α} {s : SortedSet α},
    b ∈ s.insertAll as ↔ b ∈ as ∨ b ∈ s
  | [], _ => by simp [insertAll]
  | a :: as, s => by
      rw [insertAll, List.foldl_cons]
      refine mem_insertAll.trans ?_
      rw [mem_insert, List.mem_cons, ← or_assoc, or_comm (a := b ∈ as)]

@[simp] theorem mem_ofList {b : α} {as : List α} : b ∈ ofList as ↔ b ∈ as := by
  simp [ofList]

@[simp] theorem mem_union {b : α} {s t : SortedSet α} : b ∈ s.union t ↔ b ∈ s ∨ b ∈ t :=
  Std.ExtTreeSet.mem_union_iff

/-- A new member adds one. -/
theorem size_insert_of_not_mem {a : α} {s : SortedSet α} (h : a ∉ s) :
    (s.insert a).size = s.size + 1 :=
  Std.ExtTreeSet.size_insert.trans (if_neg h)

/-! ## One list for each set -/

@[simp] theorem mem_toList {a : α} {s : SortedSet α} : a ∈ s.toList ↔ a ∈ s :=
  Std.ExtTreeSet.mem_toList

/-- Each member is listed strictly before the greater ones. -/
theorem sorted (s : SortedSet α) : s.toList.Pairwise Before := Std.ExtTreeSet.ordered_toList

theorem nodup_toList (s : SortedSet α) : s.toList.Nodup := s.sorted.imp Before.ne

@[simp] theorem length_toList (s : SortedSet α) : s.toList.length = s.size :=
  Std.ExtTreeSet.length_toList

@[simp] theorem isEmpty_toList (s : SortedSet α) : s.toList.isEmpty = s.isEmpty :=
  Std.ExtTreeSet.isEmpty_toList

@[simp] theorem toList_filter (p : α → Bool) (s : SortedSet α) :
    (s.filter p).toList = s.toList.filter p :=
  Std.ExtTreeSet.toList_filter

@[simp] theorem mem_filter {b : α} {p : α → Bool} {s : SortedSet α} :
    b ∈ s.filter p ↔ b ∈ s ∧ p b = true := by
  rw [← mem_toList, toList_filter, List.mem_filter, mem_toList]

@[ext] theorem ext {s t : SortedSet α} (h : ∀ a, a ∈ s ↔ a ∈ t) : s = t :=
  congrArg mk (Std.ExtTreeSet.ext_mem h)

theorem toList_inj {s t : SortedSet α} : s.toList = t.toList ↔ s = t :=
  Std.ExtTreeSet.toList_inj.trans ⟨fun h => congrArg mk h, congrArg tree⟩

/-- Collecting the members of a set gives it back. -/
theorem ofList_toList (s : SortedSet α) : ofList s.toList = s :=
  ext fun a => by rw [mem_ofList, mem_toList]

/-! ## Sets of sets -/

/-- Sets are ordered by their sizes.  Of two sets with as many members the one with the
lesser member comes first, at the first place where their lists differ. -/
def order : SortedSet α → SortedSet α → Ordering :=
  compareLex (compareOn size) (compareOn toList)

instance : Std.TransCmp (order : SortedSet α → SortedSet α → Ordering) := by
  unfold order
  infer_instance

theorem order_eq_iff {s t : SortedSet α} : order s t = .eq ↔ s = t := by
  refine ⟨fun h => ?_, fun h => h ▸ Std.ReflCmp.compare_self⟩
  exact toList_inj.mp (Std.LawfulEqOrd.eq_of_compare (compareLex_eq_eq.mp h).2)

instance : DecidableEq (SortedSet α) := fun _ _ => decidable_of_iff _ order_eq_iff

instance : Ordered (SortedSet α) where
  compare := order
  eq_swap {s t} := @Std.OrientedCmp.eq_swap _ order _ s t
  isLE_trans {s t u} := @Std.TransCmp.isLE_trans _ order _ s t u
  compare_self {s} := @Std.ReflCmp.compare_self _ order _ s
  eq_of_compare := order_eq_iff.mp
  decEq := inferInstance

end SortedSet

end BottomUp
