import BottomUp.Text.Blank
import BottomUp.Text.Quoted

/-!
# Lexemes of arithmetic

An expression is made of numbers, the operators `+ - * /` and parentheses.  Blank
characters between them mean nothing.  A number is a longest run of ASCII digits.  It has
to fit a signed 64-bit word.

The stream of lexemes ends at the end of the text or with the first error.  The place of an
error is its offset in the UTF-8 form of the text.
-/

namespace BottomUp.Calculator

/-- A lexeme: what it is, and the number it denotes if it is one. -/
structure Lexeme where
  /-- The terminal it stands for. -/
  kind : String
  /-- The number, and zero for operators and parentheses. -/
  value : Int
deriving DecidableEq, Repr

/-- Why a text has no lexemes from some place on. -/
inductive LexError where
  /-- A character belongs to no lexeme. -/
  | unexpected (c : Char) (offset : Nat)
  /-- A number is too large. -/
  | overflow
deriving DecidableEq, Repr

/-- The greatest signed 64-bit integer. -/
def maxInt : Int := 9223372036854775807

/-- The least signed 64-bit integer. -/
def minInt : Int := -9223372036854775808

/-- The terminal of an operator or parenthesis. -/
def symbol? (c : Char) : Option String :=
  if ['+', '-', '*', '/', '(', ')'].contains c then some c.toString else none

/-- The value of an ASCII digit. -/
def digit? (c : Char) : Option Nat := if c.isDigit then some (c.toNat - '0'.toNat) else none

/-- The lexeme of a number.  One that is too large is an error. -/
def number (n : Nat) : Except LexError Lexeme :=
  if (n : Int) ≤ maxInt then .ok ⟨"num", n⟩ else .error .overflow

/-- The number whose digits were just read, if there is one, in front of what follows it. -/
def withNumber (pending : Option Nat) (rest : List (Except LexError Lexeme)) :
    List (Except LexError Lexeme) :=
  match pending with
  | none => rest
  | some n =>
      match number n with
      | .ok lexeme => .ok lexeme :: rest
      | .error e => [.error e]

/-- The lexemes of a text that begins at an offset.  `pending` is the number whose digits
end there. -/
def lexFrom (offset : Nat) (pending : Option Nat) : List Char → List (Except LexError Lexeme)
  | [] => withNumber pending []
  | c :: cs =>
      match digit? c with
      | some d => lexFrom (offset + 1) (some (10 * pending.getD 0 + d)) cs
      | none =>
          withNumber pending <|
            if Text.isBlank c then lexFrom (offset + c.utf8Size) none cs
            else
              match symbol? c with
              | some kind => .ok ⟨kind, 0⟩ :: lexFrom (offset + c.utf8Size) none cs
              | none => [.error (.unexpected c offset)]

/-- The lexemes of a text. -/
def lex (text : String) : List (Except LexError Lexeme) := lexFrom 0 none text.toList

end BottomUp.Calculator
