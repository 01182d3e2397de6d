import BottomUp.SortedMap

/-!
# Tabulated functions

A function that is asked again and again for the same arguments is worked out for them
beforehand.  A *tabulated function* holds some of its values and works out any other, so it
has the same value everywhere (`Tabulated.get_eq`): what is defined through a table is what
it would be without one.  The positions in a list are worked out all at once
(`Tabulated.positions`).
-/

namespace BottomUp

/-- Some values of a function, to be looked up. -/
structure Tabulated {α β : Type} [Ordered α] (f : α → β) where
  /-- The values that are worked out. -/
  entries : SortedMap α β
  /-- They are values of the function. -/
  agrees : ∀ {a : α} {b : β}, entries.get? a = some b → b = f a

namespace Tabulated

variable {α β : Type} [Ordered α] {f : α → β}

/-- The function with its values for some arguments worked out. -/
def of (f : α → β) (arguments : List α) : Tabulated f where
  entries := .ofList (arguments.map fun a => (a, f a))
  agrees h := by
    obtain ⟨a, -, he⟩ := List.mem_map.mp (SortedMap.mem_of_get?_ofList h)
    cases he
    rfl

/-- The positions of the members of a list without repetitions. -/
def positions (l : List α) (h : l.Nodup) : Tabulated l.idxOf where
  entries := .ofList l.zipIdx
  agrees {a i} hm := by
    have hm : l[i]? = some a :=
      List.mem_zipIdx_iff_getElem?.mp (SortedMap.mem_of_get?_ofList hm)
    obtain ⟨hi, rfl⟩ := List.getElem?_eq_some_iff.mp hm
    exact (h.idxOf_getElem i hi).symm

/-- The value of the function. -/
def get (table : Tabulated f) (a : α) : β :=
  match table.entries.get? a with
  | some b => b
  | none => f a

/-- A table has the values of its function. -/
@[simp] theorem get_eq (table : Tabulated f) : table.get = f := by
  funext a
  unfold get
  split
  · rename_i h
    exact table.agrees h
  · rfl

end Tabulated

end BottomUp
