/-!
# Decimal numbers

Integers in decimal, with a minus sign in front of negative ones and no leading zeros.
Reading accepts exactly what writing produces, so each number has one written form.
-/

namespace BottomUp.Decimal

/-! ## Writing -/

/-- The digits of a natural number, the most significant first. -/
def digits (n : Nat) : List Char :=
  if n < 10 then [Nat.digitChar n] else digits (n / 10) ++ [Nat.digitChar (n % 10)]

/-- An integer in decimal. -/
def write (i : Int) : String :=
  String.ofList (if i < 0 then '-' :: digits i.natAbs else digits i.natAbs)

/-! ## Reading -/

/-- The value of an ASCII digit. -/
def digitValue? (c : Char) : Option Nat := if c.isDigit then some (c.toNat - '0'.toNat) else none

/-- The number that some digits denote after the number `n`. -/
def readFrom (n : Nat) : List Char → Option Nat
  | [] => some n
  | c :: cs => (digitValue? c).bind fun d => readFrom (10 * n + d) cs

/-- The number that a nonempty list of digits denotes, if it has no leading zero. -/
def readNat? : List Char → Option Nat
  | [] => none
  | ['0'] => some 0
  | c :: cs => if c = '0' then none else readFrom 0 (c :: cs)

/-- The integer that a text denotes. -/
def read? (s : String) : Option Int :=
  match s.toList with
  | '-' :: cs => (readNat? cs).bind fun n => if n = 0 then none else some (-(n : Int))
  | cs => (readNat? cs).map Int.ofNat

end BottomUp.Decimal
