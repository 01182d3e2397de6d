import BottomUp.Table.Basic
import BottomUp.Table.Document
import BottomUp.Text.Decimal

/-!
# Stored tables

A table is stored as a document and read back from it.  A structure is a record with its
fields by name.  An action is a record whose one field is named for the kind of action,
except that acceptance is a mere string.  Maps are records whose field names are the
written keys, so a terminal has two written forms: as a document and as a key.

A reader takes more than what a writer produces: fields in any order and beside others,
structures as lists of just their fields, acceptance as a record, and an error without
its lookahead for one at the end of the input.  Numbers are words.
-/

namespace BottomUp

open Document

/-- A type of names that can be stored, by themselves and as keys of a map. -/
class Stored (α : Type) where
  /-- The document of a name. -/
  toDocument : α → Document
  /-- The name that a document holds. -/
  ofDocument? : Document → Option α
  /-- The key that a name is in a map. -/
  toKey : α → String
  /-- The name that a key stands for. -/
  ofKey? : String → Option α

namespace Stored

instance : Stored String where
  toDocument := .string
  ofDocument? := Document.string?
  toKey s := s
  ofKey? s := some s

/-- The one character of a string. -/
def char? (s : String) : Option Char :=
  match s.toList with
  | [c] => some c
  | _ => none

instance : Stored Char where
  toDocument c := .string c.toString
  ofDocument? d := d.string?.bind char?
  toKey := Char.toString
  ofKey? := char?

/-- The 64-bit integer of a value, if there is one. -/
def int64? (i : Int) : Option Int64 :=
  if Int64.minValue.toInt ≤ i ∧ i ≤ Int64.maxValue.toInt then some (Int64.ofInt i) else none

instance : Stored Int64 where
  toDocument n := .number n.toInt 0
  ofDocument? d := d.int?.bind int64?
  toKey n := Decimal.write n.toInt
  ofKey? s := (Decimal.read? s).bind int64?

end Stored

/-- A number that is a word. -/
def Document.word? (d : Document) : Option Nat :=
  d.int?.bind fun i => if 0 ≤ i ∧ i < UInt64.size then some i.toNat else none

/-- A list of documents, each read in one way. -/
def Document.listOf? {α : Type} (read : Document → Option α) (d : Document) : Option (List α) :=
  d.list?.bind fun items => items.mapM read

/-- An optional name.  A missing one is no value. -/
def Document.option? {α : Type} [Stored α] : Document → Option (Option α)
  | .null => some none
  | d => (Stored.ofDocument? d).map some

namespace SortedMap

variable {κ β : Type} [Ordered κ] [Stored κ]

/-- A map as a record. -/
def toDocument (write : β → Document) (m : SortedMap κ β) : Document :=
  .record (m.toList.map fun (k, b) => (Stored.toKey k, write b))

/-- The map that a record is. -/
def ofDocument? (read : Document → Option β) (d : Document) : Option (SortedMap κ β) := do
  let fields ← d.record?
  let entries ← fields.mapM fun (key, value) => do
    return (← Stored.ofKey? key, ← read value)
  return .ofList entries

end SortedMap

/-! ## Actions -/

namespace Action

variable {T : Type} [Stored T]

mutual

/-- The document of an action. -/
def toDocument : Action T → Document
  | .shift state => .record [("Shift", .nat state)]
  | .reduce production => .record [("Reduce", .nat production)]
  | .accept => .string "Accept"
  | .error message conflicts ahead =>
      .record [("Error", .record
        [("message", .string message), ("conflicts", .list (toDocuments conflicts)),
          ("lookahead", (ahead.map Stored.toDocument).getD .null)])]

/-- The documents of some actions. -/
def toDocuments : List (Action T) → List Document
  | [] => []
  | a :: as => toDocument a :: toDocuments as

end

/-- The action that a document nested no deeper than a number holds. -/
def ofDocumentWithin? : Nat → Document → Option (Action T)
  | _, .string name => if name = "Accept" then some .accept else none
  | depth, .record [(kind, content)] =>
      if kind = "Shift" then content.word?.map .shift
      else if kind = "Reduce" then content.word?.map .reduce
      else if kind = "Accept" then
        match content with
        | .null => some .accept
        | _ => none
      else if kind = "Error" then
        match depth with
        | 0 => none
        | depth + 1 => do
            let fields ← content.record?
            let message ← (← fields.lookup "message").string?
            let conflicts ← (← fields.lookup "conflicts").listOf? (ofDocumentWithin? depth)
            let ahead ← ((fields.lookup "lookahead").getD .null).option?
            return .error message conflicts ahead
      else none
  | _, _ => none

/-- The action that a document holds. -/
def ofDocument? (d : Document) : Option (Action T) := ofDocumentWithin? d.depth d

end Action

/-! ## Tables -/

variable {T N : Type} [Ordered T] [Ordered N] [Stored T] [Stored N]

namespace Conflict

/-- The document of a conflict. -/
def toDocument (c : Conflict T) : Document :=
  .record [("state", .nat c.state), ("lookahead", Stored.toDocument c.ahead),
    ("shift", .nat c.shift), ("reduce", .nat c.reduce)]

/-- The conflict that a document holds. -/
def ofDocument? (d : Document) : Option (Conflict T) := do
  match ← d.fields? ["state", "lookahead", "shift", "reduce"] with
  | [state, ahead, shift, reduce] =>
      return ⟨← state.word?, ← Stored.ofDocument? ahead, ← shift.word?, ← reduce.word?⟩
  | _ => none

end Conflict

namespace ProductionInfo

/-- The document of a production's left-hand side and length. -/
def toDocument (info : ProductionInfo N) : Document :=
  .record [("lhs", Stored.toDocument info.lhs), ("len", .nat info.len)]

/-- The left-hand side and length that a document holds. -/
def ofDocument? (d : Document) : Option (ProductionInfo N) := do
  match ← d.fields? ["lhs", "len"] with
  | [lhs, len] => return ⟨← Stored.ofDocument? lhs, ← len.word?⟩
  | _ => none

end ProductionInfo

namespace Row

/-- The document of a row. -/
def toDocument (row : Row T N) : Document :=
  .record [("eof", row.atEnd.toDocument), ("lookahead", row.actions.toDocument Action.toDocument),
    ("goto", row.gotos.toDocument Document.nat)]

/-- The row that a document holds. -/
def ofDocument? (d : Document) : Option (Row T N) := do
  match ← d.fields? ["eof", "lookahead", "goto"] with
  | [atEnd, actions, gotos] =>
      return ⟨← Action.ofDocument? atEnd, ← SortedMap.ofDocument? Action.ofDocument? actions,
        ← SortedMap.ofDocument? Document.word? gotos⟩
  | _ => none

end Row

namespace ParseTable

/-- The document of a table. -/
def toDocument (table : ParseTable T N) : Document :=
  .record [("states", .list (table.rows.map Row.toDocument)), ("start", .nat table.start),
    ("start_production", .nat table.startProduction),
    ("productions", .list (table.productions.map ProductionInfo.toDocument)),
    ("conflicts", .list (table.conflicts.map Conflict.toDocument))]

/-- The table that a document holds. -/
def ofDocument? (d : Document) : Option (ParseTable T N) := do
  match ← d.fields? ["states", "start", "start_production", "productions", "conflicts"] with
  | [rows, start, startProduction, productions, conflicts] =>
      return ⟨← rows.listOf? Row.ofDocument?, ← start.word?, ← startProduction.word?,
        ← productions.listOf? ProductionInfo.ofDocument?,
        ← conflicts.listOf? Conflict.ofDocument?⟩
  | _ => none

end ParseTable

end BottomUp
