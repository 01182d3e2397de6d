import BottomUp.Calculator.Arithmetic
import BottomUp.Proofs.Spelling

/-!
# Scanning

The lexemes of a text can be asked for one at a time.  A *scan* goes over blank characters, takes
the next lexeme and tells what it leaves, with its offset.  A number is read digit by digit and
is kept in a word all along, so a scan overflows at the first digit with which the number does
not fit any more.  The product may be too large already, or only the sum.

A number never gets smaller by another digit (`le_foldl_appendDigit`).  So the scan overflows
just if the whole run of digits denotes too much, wherever that shows (`readDigits_append`), and
what scans yield one after the other are the lexemes of the text (`lexFrom_eq_scanAll`).
-/

namespace BottomUp.Calculator

/-! ## One lexeme at a time -/

/-- A word with one more digit.  It is `none` if the product or the sum does not fit. -/
def appendDigit? (value : Int) (d : Char) : Value := do
  let shifted ← checked (value * 10)
  checked (shifted + (d.toNat - '0'.toNat : Nat))

/-- The digits that come next go on with a number.  The number is given with the offset and the
text behind it.  It is `none` if the number does not fit a word. -/
def readDigits (value : Int) (offset : Nat) : List Char → Option (Int × Nat × List Char)
  | [] => some (value, offset, [])
  | c :: cs =>
      if c.isDigit then
        (appendDigit? value c).bind fun value => readDigits value (offset + c.utf8Size) cs
      else some (value, offset, c :: cs)

/-- What comes of asking for the next lexeme. -/
inductive Scan where
  /-- There is none. -/
  | ends
  /-- A lexeme, and the offset and the text behind it. -/
  | lexeme (k : Lexeme) (offset : Nat) (rest : List Char)
  /-- An error. -/
  | fails (e : LexError)

/-- What is read when a scan comes first, if `onward` reads what it leaves. -/
def Scan.yields (onward : Nat → List Char → List (Except LexError Lexeme)) :
    Scan → List (Except LexError Lexeme)
  | .ends => []
  | .lexeme k offset rest => .ok k :: onward offset rest
  | .fails e => [.error e]

/-- Ask for the next lexeme of a text that begins at an offset. -/
def scan (offset : Nat) : List Char → Scan
  | [] => .ends
  | c :: cs =>
      if Text.isBlank c then scan (offset + c.utf8Size) cs
      else if ['+', '-', '*', '/', '(', ')'].contains c then
        .lexeme ⟨c.toString, 0⟩ (offset + c.utf8Size) cs
      else if c.isDigit then
        match readDigits (c.toNat - '0'.toNat : Nat) (offset + c.utf8Size) cs with
        | some (value, offset, rest) => .lexeme ⟨"num", value⟩ offset rest
        | none => .fails .overflow
      else .fails (.unexpected c offset)

variable {cs ds rest : List Char} {c : Char} {k : Lexeme} {n offset offset' : Nat}
  {value value' : Int}

theorem length_of_readDigits : ∀ {cs : List Char} {value : Int} {offset : Nat},
    readDigits value offset cs = some (value', offset', rest) → rest.length ≤ cs.length
  | [], _, _, h => by
      cases h
      exact Nat.le_refl 0
  | c :: cs, _, _, h => by
      rw [readDigits] at h
      split at h
      · obtain ⟨_, _, h⟩ := Option.bind_eq_some_iff.mp h
        exact Nat.le_succ_of_le (length_of_readDigits h)
      · cases h
        exact Nat.le_refl _

/-- A scan that gives a lexeme leaves less of the text. -/
theorem length_of_scan : ∀ {cs : List Char} {offset : Nat},
    scan offset cs = .lexeme k offset' rest → rest.length < cs.length
  | c :: cs, _, h => by
      rw [scan] at h
      split at h
      · exact Nat.lt_succ_of_lt (length_of_scan h)
      · split at h
        · cases h
          exact Nat.lt_succ_self _
        · split at h
          · split at h
            · rename_i read
              cases h
              exact Nat.lt_succ_of_le (length_of_readDigits read)
            · cases h
          · cases h

/-- Ask for lexemes until there is none or an error. -/
def scanAll (offset : Nat) (cs : List Char) : List (Except LexError Lexeme) :=
  match _h : scan offset cs with
  | .ends => []
  | .lexeme k offset rest => .ok k :: scanAll offset rest
  | .fails e => [.error e]
termination_by cs.length
decreasing_by exact length_of_scan _h

/-! ## Numbers in words -/

/-- A number does not get smaller by more digits. -/
theorem le_foldl_appendDigit : ∀ (ds : List Char) (n : Nat), n ≤ ds.foldl appendDigit n
  | [], n => Nat.le_refl n
  | d :: ds, n => by
      have step : n ≤ appendDigit n d := by
        rw [appendDigit]
        omega
      exact Nat.le_trans step (le_foldl_appendDigit ds _)

theorem checked_natCast (n : Nat) :
    checked n = if (n : Int) ≤ maxInt then some (n : Int) else none := by
  have low : minInt ≤ n := Int.le_trans (by decide) (Int.natCast_nonneg n)
  simp only [checked, low, true_and]

/-- One more digit overflows just if the number with it is too large. -/
theorem appendDigit?_natCast (n : Nat) (d : Char) :
    appendDigit? n d =
      if (appendDigit n d : Int) ≤ maxInt then some (appendDigit n d : Int) else none := by
  have product : (n : Int) * 10 = (n * 10 : Nat) := by simp
  rw [appendDigit?, product, checked_natCast]
  by_cases h : ((n * 10 : Nat) : Int) ≤ maxInt
  · rw [if_pos h, ← checked_natCast, appendDigit, Nat.mul_comm 10 n]
    rfl
  · -- the product is too large already, and the sum is not smaller
    have sum : ¬ (appendDigit n d : Int) ≤ maxInt := by
      rw [appendDigit]
      omega
    rw [if_neg h, if_neg sum]
    rfl

/-- Reading a run of digits overflows just if the number with all of them is too large. -/
theorem readDigits_append (hr : ∀ c ∈ rest.head?, c.isDigit = false) :
    ∀ {ds : List Char} {n offset : Nat}, (∀ d ∈ ds, d.isDigit = true) → (n : Int) ≤ maxInt →
      readDigits n offset (ds ++ rest) =
        if (ds.foldl appendDigit n : Nat) ≤ maxInt then
          some (((ds.foldl appendDigit n : Nat) : Int), offset + bytes ds, rest)
        else none
  | [], n, offset, _, hn => by
      rw [List.nil_append, List.foldl_nil, if_pos hn, bytes_nil, Nat.add_zero]
      cases rest with
      | nil => rfl
      | cons c rest => rw [readDigits, hr c rfl, if_neg Bool.false_ne_true]
  | d :: ds, n, offset, hd, hn => by
      obtain ⟨hd, hds⟩ := List.forall_mem_cons.mp hd
      rw [List.cons_append, readDigits, if_pos hd, appendDigit?_natCast, List.foldl_cons,
        bytes_cons, ← Nat.add_assoc]
      by_cases h : (appendDigit n d : Int) ≤ maxInt
      · rw [if_pos h, Option.bind_some, readDigits_append hr hds h]
      · -- no digit behind this one makes up for it
        have whole := le_foldl_appendDigit ds (appendDigit n d)
        rw [if_neg h, Option.bind_none, if_neg (by omega)]

theorem isDigit_of_mem_takeWhile : ∀ d ∈ cs.takeWhile Char.isDigit, d.isDigit = true :=
  List.all_eq_true.mp List.all_takeWhile

theorem isDigit_head?_dropWhile : ∀ c ∈ (cs.dropWhile Char.isDigit).head?, c.isDigit = false := by
  intro c hc
  have stops := List.head?_dropWhile_not Char.isDigit cs
  rwa [Option.mem_def.mp hc] at stops

/-- Behind its first digit a number is read to the end of the longest run of digits. -/
theorem readDigits_eq {d : Char} (hd : d.isDigit = true) (offset : Nat) (cs : List Char) :
    readDigits (d.toNat - '0'.toNat : Nat) offset cs =
      if (decimal (d :: cs.takeWhile Char.isDigit) : Nat) ≤ maxInt then
        some (((decimal (d :: cs.takeWhile Char.isDigit) : Nat) : Int),
          offset + bytes (cs.takeWhile Char.isDigit), cs.dropWhile Char.isDigit)
      else none := by
  have small : ((d.toNat - '0'.toNat : Nat) : Int) ≤ maxInt := by
    simp only [Char.isDigit, Bool.and_eq_true, decide_eq_true_eq] at hd
    have high : d.toNat ≤ 57 := UInt32.le_iff_toNat_le.mp hd.2
    rw [maxInt]
    omega
  have first : decimal (d :: cs.takeWhile Char.isDigit) =
      (cs.takeWhile Char.isDigit).foldl appendDigit (d.toNat - '0'.toNat) := by
    rw [decimal, List.foldl_cons, appendDigit, Nat.mul_zero, Nat.zero_add]
  rw [first, ← readDigits_append isDigit_head?_dropWhile isDigit_of_mem_takeWhile small,
    List.takeWhile_append_dropWhile]

/-- Reading a number overflows just if the longest run of digits denotes too much. -/
theorem readDigits_eq_none_iff {d : Char} (hd : d.isDigit = true) :
    readDigits (d.toNat - '0'.toNat : Nat) offset cs = none ↔
      maxInt < decimal (d :: cs.takeWhile Char.isDigit) := by
  rw [readDigits_eq hd, ← Int.not_le]
  simp only [ite_eq_right_iff, reduceCtorEq, imp_false]

/-! ## Scans yield the lexemes -/

theorem symbol?_of_contains (h : ['+', '-', '*', '/', '(', ')'].contains c = true) :
    symbol? c = some c.toString :=
  if_pos h

theorem symbol?_of_not_contains (h : ¬ ['+', '-', '*', '/', '(', ')'].contains c = true) :
    symbol? c = none :=
  if_neg h

/-- Reading from a digit on, with the number in front of what is read behind it. -/
theorem lexFrom_of_isDigit (hc : c.isDigit = true) (offset : Nat) (cs : List Char) :
    lexFrom offset none (c :: cs) = withNumber (some (decimal (c :: cs.takeWhile Char.isDigit)))
      (lexFrom (offset + c.utf8Size + bytes (cs.takeWhile Char.isDigit)) none
        (cs.dropWhile Char.isDigit)) := by
  have run := bytes_of_digits (@isDigit_of_mem_takeWhile cs)
  have split : cs = cs.takeWhile Char.isDigit ++ cs.dropWhile Char.isDigit :=
    List.takeWhile_append_dropWhile.symm
  rw [lexFrom, digit?_of_isDigit hc, utf8Size_of_isDigit hc, run]
  simp only [Option.getD_none]
  rw [split, lexFrom_digits isDigit_of_mem_takeWhile, lexFrom_some isDigit_head?_dropWhile, ← split]
  rfl

/-- A scan tells what is read first. -/
theorem lexFrom_eq_yields : ∀ (cs : List Char) (offset : Nat),
    lexFrom offset none cs = (scan offset cs).yields fun offset => lexFrom offset none
  | [], _ => rfl
  | c :: cs, offset => by
      rw [scan]
      split
      case isTrue blank =>
        rw [← lexFrom_eq_yields cs, lexFrom, digit?_eq_none_iff.mpr (isDigit_of_isBlank blank)]
        simp only [withNumber, if_pos blank]
      case isFalse blank =>
        split
        case isTrue symbol =>
          have kind := symbol?_of_contains symbol
          rw [lexFrom, digit?_eq_none_iff.mpr (isDigit_of_symbol? kind)]
          simp only [withNumber, if_neg blank, kind]
          rfl
        case isFalse symbol =>
          split
          case isTrue digit =>
            rw [lexFrom_of_isDigit digit, readDigits_eq digit, withNumber, Calculator.number]
            by_cases fits : (decimal (c :: cs.takeWhile Char.isDigit) : Nat) ≤ maxInt
            · simp only [if_pos fits]
              rfl
            · simp only [if_neg fits]
              rfl
          case isFalse digit =>
            rw [lexFrom, digit?_eq_none_iff.mpr (Bool.eq_false_iff.mpr digit)]
            simp only [withNumber, if_neg blank, symbol?_of_not_contains symbol]
            rfl

/-- The lexemes of a text are what scans yield one after the other. -/
theorem lexFrom_eq_scanAll (offset : Nat) (cs : List Char) :
    lexFrom offset none cs = scanAll offset cs := by
  fun_induction scanAll offset cs with
  | case1 offset cs h => rw [lexFrom_eq_yields, h, Scan.yields]
  | case2 offset cs k offset' rest h ih => rw [lexFrom_eq_yields, h, Scan.yields, ih]
  | case3 offset cs e h => rw [lexFrom_eq_yields, h, Scan.yields]

end BottomUp.Calculator
