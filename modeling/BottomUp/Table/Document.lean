/-!
# Documents

The values that a stored table is made of: nothing, truth values, numbers, strings, lists
and records.  A number is kept as it is written, as an integer and a count of decimal
places, so `1` and `1.0` are different documents.
-/

namespace BottomUp

/-- A document. -/
inductive Document where
  /-- No value. -/
  | null
  /-- A truth value. -/
  | bool (b : Bool)
  /-- The number `mantissa / 10 ^ places`. -/
  | number (mantissa : Int) (places : Nat)
  /-- A string. -/
  | string (s : String)
  /-- A list. -/
  | list (items : List Document)
  /-- A record of named fields. -/
  | record (fields : List (String × Document))

namespace Document

instance : Inhabited Document := ⟨null⟩

/-- A natural number. -/
def nat (n : Nat) : Document := number n 0

/-- The integer that a document is. -/
def int? : Document → Option Int
  | number i 0 => some i
  | _ => none

/-- The string that a document is. -/
def string? : Document → Option String
  | string s => some s
  | _ => none

/-- The items of the list that a document is. -/
def list? : Document → Option (List Document)
  | list items => some items
  | _ => none

/-- The fields of the record that a document is. -/
def record? : Document → Option (List (String × Document))
  | record fields => some fields
  | _ => none

/-- The fields with the given names of a record.  A list of just as many items stands for
a record with these names in this order. -/
def fields? (names : List String) : Document → Option (List Document)
  | record fields => names.mapM fun name => fields.lookup name
  | list items => if items.length = names.length then some items else none
  | _ => none

mutual

/-- How deep a document is nested. -/
def depth : Document → Nat
  | list items => depthOfItems items + 1
  | record fields => depthOfFields fields + 1
  | _ => 0

/-- How deep some items are nested. -/
def depthOfItems : List Document → Nat
  | [] => 0
  | d :: ds => max (depth d) (depthOfItems ds)

/-- How deep some fields are nested. -/
def depthOfFields : List (String × Document) → Nat
  | [] => 0
  | (_, d) :: fields => max (depth d) (depthOfFields fields)

end

end Document

end BottomUp
