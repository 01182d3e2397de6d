import BottomUp.Text.Printable

/-!
# Quoted values

Messages, logs and drawings quote the names they speak of, so that a name with blanks or
invisible characters can be read off the text.  A string stands between double quotes and
a character between single ones.  Inside, line feed, carriage return, tab, the null
character, the backslash and the enclosing quote are written with a backslash, and every
other character that is not printable by its code point in hexadecimal.

A type has quoted values when it is `Quoted`.  Numbers are quoted as they are written.
-/

namespace BottomUp

namespace Text

/-- A code point in hexadecimal with lower-case digits and no leading zeros. -/
def hexadecimal (n : Nat) : String := String.ofList (Nat.toDigits 16 n)

/-- How a character is written between two quotes `mark`. -/
def escape (mark c : Char) : String :=
  if c = '\n' then "\\n"
  else if c = '\r' then "\\r"
  else if c = '\t' then "\\t"
  else if c = '\x00' then "\\0"
  else if c = '\\' then "\\\\"
  else if c = mark then "\\" ++ mark.toString
  else if isPrintable c then c.toString
  else "\\u\x7b" ++ hexadecimal c.toNat ++ "\x7d"

/-- A string between double quotes. -/
def quoteString (s : String) : String :=
  "\"" ++ String.join (s.toList.map (escape '"')) ++ "\""

/-- A character between single quotes. -/
def quoteChar (c : Char) : String := "'" ++ escape '\'' c ++ "'"

/-- The texts with commas between them. -/
def commas (parts : List String) : String := ", ".intercalate parts

end Text

/-- A type whose values can be named in a message. -/
class Quoted (α : Type) where
  /-- How a value is written in a message. -/
  quote : α → String

export Quoted (quote)

namespace Quoted

instance : Quoted String := ⟨Text.quoteString⟩
instance : Quoted Char := ⟨Text.quoteChar⟩
instance : Quoted Nat := ⟨fun n => toString n⟩
instance : Quoted Int64 := ⟨fun n => toString n.toInt⟩

/-- A value that may be missing is written with a word that says whether it is there. -/
instance {α : Type} [Quoted α] : Quoted (Option α) where
  quote
    | none => "None"
    | some a => "Some(" ++ quote a ++ ")"

/-- A list stands in square brackets. -/
instance {α : Type} [Quoted α] : Quoted (List α) where
  quote as := "[" ++ Text.commas (as.map quote) ++ "]"

end Quoted

end BottomUp
