import BottomUp.Calculator.Lexeme

/-!
# Spelling

How a text spells lexemes is said without an order of reading it (`Spelled`): blank
characters stand anywhere between lexemes, an operator or parenthesis is one character, and a
number is a run of digits that no digit follows.  Numbers may be of any size here.

Reading a text from left to right offers the lexemes that it spells, up to a number that
does not fit a word (`lex_of_spelled`), and a text that is read without an error spells what
is read (`spelled_of_lex`).  Whatever stands behind the text is read after that, unless it goes
on with a number (`Spelled.lexFrom_append`).
-/

namespace BottomUp.Calculator

/-! ## Texts and lexemes -/

/-- A number with one more digit. -/
def appendDigit (n : Nat) (d : Char) : Nat := 10 * n + (d.toNat - '0'.toNat)

/-- The number that some digits denote. -/
def decimal (ds : List Char) : Nat := ds.foldl appendDigit 0

/-- The text spells the lexemes. -/
inductive Spelled : List Char → List Lexeme → Prop
  /-- The empty text spells nothing. -/
  | nil : Spelled [] []
  /-- A blank character means nothing. -/
  | blank {c : Char} {cs : List Char} {ks : List Lexeme} :
      Text.isBlank c = true → Spelled cs ks → Spelled (c :: cs) ks
  /-- An operator or parenthesis is one character. -/
  | symbol {c : Char} {kind : String} {cs : List Char} {ks : List Lexeme} :
      symbol? c = some kind → Spelled cs ks → Spelled (c :: cs) (⟨kind, 0⟩ :: ks)
  /-- A number is a longest run of digits. -/
  | number {ds cs : List Char} {ks : List Lexeme} :
      ds ≠ [] → (∀ d ∈ ds, d.isDigit = true) → (∀ c ∈ cs.head?, c.isDigit = false) →
      Spelled cs ks → Spelled (ds ++ cs) (⟨"num", decimal ds⟩ :: ks)

/-- A lexeme as texts spell it. -/
inductive Lexeme.Proper : Lexeme → Prop
  /-- A number. -/
  | number (n : Nat) : Proper ⟨"num", n⟩
  /-- An operator or parenthesis. -/
  | symbol {c : Char} {kind : String} : symbol? c = some kind → Proper ⟨kind, 0⟩

/-- No number is too large for a word. -/
def Fits (ks : List Lexeme) : Prop := ∀ k ∈ ks, k.value ≤ maxInt

/-- What is offered of some lexemes: all up to the first that does not fit a word. -/
def offered : List Lexeme → List (Except LexError Lexeme)
  | [] => []
  | k :: ks => if k.value ≤ maxInt then .ok k :: offered ks else [.error .overflow]

/-- What is offered of some lexemes and, if all of them fit a word, of what comes after them. -/
def offeredBefore (rest : List (Except LexError Lexeme)) :
    List Lexeme → List (Except LexError Lexeme)
  | [] => rest
  | k :: ks => if k.value ≤ maxInt then .ok k :: offeredBefore rest ks else [.error .overflow]

/-- The number of bytes that characters take up in UTF-8. -/
def bytes (cs : List Char) : Nat := (String.ofList cs).utf8ByteSize

variable {cs ds : List Char} {ks : List Lexeme} {c : Char} {kind : String} {n offset : Nat}
  {rest : List (Except LexError Lexeme)}

/-! ## Characters -/

@[simp] theorem bytes_nil : bytes [] = 0 := rfl

@[simp] theorem bytes_cons (c : Char) (cs : List Char) :
    bytes (c :: cs) = c.utf8Size + bytes cs := by
  rw [bytes, String.ofList_cons, String.utf8ByteSize_append, String.utf8ByteSize_singleton]
  rfl

@[simp] theorem bytes_append (cs ds : List Char) : bytes (cs ++ ds) = bytes cs + bytes ds := by
  rw [bytes, String.ofList_append, String.utf8ByteSize_append]
  rfl

theorem mem_of_symbol? (h : symbol? c = some kind) :
    c ∈ ['+', '-', '*', '/', '(', ')'] ∧ kind = c.toString := by
  rw [symbol?, Option.ite_none_right_eq_some] at h
  obtain ⟨hm, hk⟩ := h
  exact ⟨by simpa using hm, (Option.some.inj hk).symm⟩

theorem digit?_of_isDigit (h : c.isDigit = true) : digit? c = some (c.toNat - '0'.toNat) :=
  if_pos h

theorem digit?_eq_none_iff : digit? c = none ↔ c.isDigit = false := by
  simp [digit?]

theorem digit?_eq_some {d : Nat} (h : digit? c = some d) :
    c.isDigit = true ∧ d = c.toNat - '0'.toNat := by
  rw [digit?, Option.ite_none_right_eq_some] at h
  exact ⟨h.1, (Option.some.inj h.2).symm⟩

theorem utf8Size_of_isDigit (h : c.isDigit = true) : c.utf8Size = 1 := by
  simp only [Char.isDigit, Bool.and_eq_true, decide_eq_true_eq] at h
  have high : c.toNat ≤ 57 := UInt32.le_iff_toNat_le.mp h.2
  exact if_pos (UInt32.le_iff_toNat_le.mpr (Nat.le_trans high (by decide)))

theorem isDigit_of_isBlank (h : Text.isBlank c = true) : c.isDigit = false := by
  rw [Bool.eq_false_iff]
  intro hd
  simp only [Char.isDigit, Bool.and_eq_true, decide_eq_true_eq] at hd
  have low : 48 ≤ c.toNat := UInt32.le_iff_toNat_le.mp hd.1
  have high : c.toNat ≤ 57 := UInt32.le_iff_toNat_le.mp hd.2
  simp only [Text.isBlank, Bool.or_eq_true, Bool.and_eq_true, decide_eq_true_eq, beq_iff_eq] at h
  omega

theorem isDigit_head?_cons (hc : c.isDigit = false) :
    ∀ b ∈ (c :: cs).head?, b.isDigit = false := by
  rintro _ ⟨⟩
  exact hc

/-- What is true of the six operators and parentheses. -/
theorem of_symbol? {p : Char → Bool} (hp : ['+', '-', '*', '/', '(', ')'].all p = true)
    (h : symbol? c = some kind) : p c = true :=
  List.all_eq_true.mp hp c (mem_of_symbol? h).1

theorem isDigit_of_symbol? (h : symbol? c = some kind) : c.isDigit = false := by
  have other : (!c.isDigit) = true := of_symbol? (p := fun c => !c.isDigit) rfl h
  rwa [Bool.not_eq_true'] at other

theorem isBlank_of_symbol? (h : symbol? c = some kind) : Text.isBlank c = false := by
  have other : (!Text.isBlank c) = true := of_symbol? (p := fun c => !Text.isBlank c) rfl h
  rwa [Bool.not_eq_true'] at other

/-- Operators and parentheses are no numbers. -/
theorem kind_ne_of_symbol? (h : symbol? c = some kind) : kind ≠ "num" := by
  have other : (c.toString != "num") = true := of_symbol? (p := fun c => c.toString != "num") rfl h
  rw [(mem_of_symbol? h).2]
  exact bne_iff_ne.mp other

namespace Lexeme.Proper

variable {k : Lexeme}

theorem exists_number (h : k.Proper) (hk : k.kind = "num") : ∃ n : Nat, k = ⟨"num", n⟩ := by
  cases h with
  | number n => exact ⟨n, rfl⟩
  | symbol hs => exact absurd hk (kind_ne_of_symbol? hs)

theorem eq_symbol (h : k.Proper) (hk : k.kind = kind) (hn : kind ≠ "num") : k = ⟨kind, 0⟩ := by
  cases h with
  | number n => exact absurd hk.symm hn
  | symbol hs => rw [← hk]

end Lexeme.Proper

theorem Spelled.proper (h : Spelled cs ks) : ∀ k ∈ ks, k.Proper := by
  induction h with
  | nil => exact nofun
  | blank _ _ ih => exact ih
  | symbol hs _ ih => exact List.forall_mem_cons.mpr ⟨.symbol hs, ih⟩
  | number _ _ _ _ ih => exact List.forall_mem_cons.mpr ⟨.number _, ih⟩

/-! ## What is offered -/

theorem offeredBefore_nil : offeredBefore [] ks = offered ks := by
  induction ks with
  | nil => rfl
  | cons k ks ih => rw [offeredBefore, offered, ih]

theorem offeredBefore_of_fits (h : Fits ks) : offeredBefore rest ks = ks.map .ok ++ rest := by
  induction ks with
  | nil => rfl
  | cons k ks ih =>
      obtain ⟨hk, hks⟩ := List.forall_mem_cons.mp h
      rw [offeredBefore, if_pos hk, ih hks, List.map_cons, List.cons_append]

theorem offered_of_fits (h : Fits ks) : offered ks = ks.map .ok := by
  rw [← offeredBefore_nil, offeredBefore_of_fits h, List.append_nil]

/-- What is offered breaks off at a number that is too large, whatever comes after. -/
theorem exists_offeredBefore (h : ¬ Fits ks) : ∃ front back, ks = front ++ back ∧
    ∀ rest, offeredBefore rest ks = front.map .ok ++ [.error .overflow] := by
  induction ks with
  | nil => exact absurd nofun h
  | cons k ks ih =>
      by_cases hk : k.value ≤ maxInt
      · have hks : ¬ Fits ks := fun hks => h (List.forall_mem_cons.mpr ⟨hk, hks⟩)
        obtain ⟨front, back, rfl, ho⟩ := ih hks
        refine ⟨k :: front, back, rfl, fun rest => ?_⟩
        rw [offeredBefore, if_pos hk, ho, List.map_cons, List.cons_append]
      · exact ⟨[], k :: ks, rfl, fun rest => if_neg hk⟩

/-- What is offered breaks off at a number that is too large. -/
theorem exists_offered (h : ¬ Fits ks) :
    ∃ front rest, ks = front ++ rest ∧ offered ks = front.map .ok ++ [.error .overflow] := by
  obtain ⟨front, back, split, breaks⟩ := exists_offeredBefore h
  exact ⟨front, back, split, by rw [← offeredBefore_nil, breaks]⟩

/-! ## Reading offers what is spelled -/

/-- Digits go on with the number before them. -/
theorem lexFrom_digits : ∀ {ds : List Char} {n offset : Nat}, (∀ d ∈ ds, d.isDigit = true) →
    lexFrom offset (some n) (ds ++ cs) =
      lexFrom (offset + ds.length) (some (ds.foldl appendDigit n)) cs
  | [], _, _, _ => rfl
  | d :: ds, n, offset, h => by
      obtain ⟨hd, h⟩ := List.forall_mem_cons.mp h
      rw [List.cons_append, lexFrom]
      simp only [digit?_of_isDigit hd, Option.getD_some]
      rw [lexFrom_digits h, List.length_cons, Nat.add_right_comm, ← Nat.add_assoc]
      rfl

/-- A number ends where no digit follows. -/
theorem lexFrom_some (h : ∀ c ∈ cs.head?, c.isDigit = false) :
    lexFrom offset (some n) cs = withNumber (some n) (lexFrom offset none cs) := by
  cases cs with
  | nil => rfl
  | cons c cs =>
      rw [lexFrom, lexFrom, digit?_eq_none_iff.mpr (h c rfl)]
      rfl

theorem withNumber_some (n : Nat) (ks : List Lexeme) :
    withNumber (some n) (offeredBefore rest ks) = offeredBefore rest (⟨"num", n⟩ :: ks) := by
  rw [withNumber, offeredBefore, Calculator.number]
  by_cases hn : (n : Int) ≤ maxInt
  · simp only [if_pos hn]
  · simp only [if_neg hn]

/-- Digits take up one byte each. -/
theorem bytes_of_digits : ∀ {ds : List Char}, (∀ d ∈ ds, d.isDigit = true) → bytes ds = ds.length
  | [], _ => rfl
  | d :: ds, h => by
      obtain ⟨hd, h⟩ := List.forall_mem_cons.mp h
      rw [bytes_cons, utf8Size_of_isDigit hd, bytes_of_digits h, List.length_cons, Nat.add_comm]

/-- What a text spells is offered by reading it, and then what is read behind it. -/
theorem Spelled.lexFrom_append {tail : List Char} (h : Spelled cs ks)
    (ht : ∀ c ∈ tail.head?, c.isDigit = false) : ∀ offset,
    lexFrom offset none (cs ++ tail) =
      offeredBefore (lexFrom (offset + bytes cs) none tail) ks := by
  induction h with
  | nil => exact fun _ => rfl
  | blank hb _ ih =>
      intro offset
      rw [List.cons_append, lexFrom, digit?_eq_none_iff.mpr (isDigit_of_isBlank hb), bytes_cons,
        ← Nat.add_assoc]
      simp only [withNumber, if_pos hb]
      exact ih _
  | symbol hs _ ih =>
      intro offset
      rw [List.cons_append, lexFrom, digit?_eq_none_iff.mpr (isDigit_of_symbol? hs), bytes_cons,
        ← Nat.add_assoc]
      simp only [withNumber, isBlank_of_symbol? hs, hs, ih]
      rfl
  | @number ds cs ks hne hd hc _ ih =>
      intro offset
      have ends : ∀ c ∈ (cs ++ tail).head?, c.isDigit = false := by
        cases cs with
        | nil => exact ht
        | cons c cs => exact hc
      rw [List.append_assoc, bytes_append, bytes_of_digits hd, ← Nat.add_assoc]
      obtain ⟨d, ds, rfl⟩ := List.exists_cons_of_ne_nil hne
      obtain ⟨hd, hds⟩ := List.forall_mem_cons.mp hd
      have length : offset + 1 + ds.length = offset + (d :: ds).length := by
        rw [List.length_cons, Nat.add_assoc, Nat.add_comm 1]
      rw [List.cons_append, lexFrom, digit?_of_isDigit hd]
      simp only [Option.getD_none]
      rw [lexFrom_digits hds, length, lexFrom_some ends, ih, withNumber_some]
      rfl

/-- What a text spells is offered by reading it. -/
theorem Spelled.lexFrom_eq (h : Spelled cs ks) (offset : Nat) :
    lexFrom offset none cs = offered ks := by
  have ends : ∀ c ∈ ([] : List Char).head?, c.isDigit = false := nofun
  have whole := h.lexFrom_append ends offset
  rwa [List.append_nil, lexFrom, withNumber, offeredBefore_nil] at whole

/-- Reading a text offers what it spells, up to a number that does not fit a word. -/
theorem lex_of_spelled {text : String} (h : Spelled text.toList ks) : lex text = offered ks :=
  h.lexFrom_eq 0

/-! ## What is read is spelled -/

/-- With the number that was begun before it the text spells the lexemes. -/
def Resumes (pending : Option Nat) (cs : List Char) (ks : List Lexeme) : Prop :=
  match pending with
  | none => Spelled cs ks
  | some n => ∃ ds rest ks', cs = ds ++ rest ∧ (∀ d ∈ ds, d.isDigit = true) ∧
      (∀ c ∈ rest.head?, c.isDigit = false) ∧ ks = ⟨"num", (ds.foldl appendDigit n : Nat)⟩ :: ks' ∧
        Spelled rest ks'

/-- A number that ends here stands before what is spelled on. -/
theorem resumes_of_withNumber {pending : Option Nat} {rest : List (Except LexError Lexeme)}
    (h : withNumber pending rest = ks.map .ok) (hc : ∀ c ∈ cs.head?, c.isDigit = false)
    (onward : ∀ ks, rest = ks.map .ok → Spelled cs ks) : Resumes pending cs ks := by
  cases pending with
  | none => exact onward ks h
  | some n =>
      rw [withNumber, Calculator.number] at h
      by_cases hn : (n : Int) ≤ maxInt
      · simp only [if_pos hn] at h
        obtain ⟨k, ks, rfl, hk, hr⟩ := List.map_eq_cons_iff.mp h.symm
        cases hk
        exact ⟨[], cs, ks, rfl, nofun, hc, rfl, onward ks hr.symm⟩
      · simp only [if_neg hn] at h
        obtain ⟨k, ks, _, hk, _⟩ := List.map_eq_cons_iff.mp h.symm
        cases hk

/-- A digit belongs to the number that was begun before it, or begins one. -/
theorem Resumes.digit {pending : Option Nat} (hc : c.isDigit = true)
    (h : Resumes (some (appendDigit (pending.getD 0) c)) cs ks) : Resumes pending (c :: cs) ks := by
  obtain ⟨ds, rest, ks', rfl, hd, hr, rfl, hs⟩ := h
  have digits : ∀ d ∈ c :: ds, d.isDigit = true := List.forall_mem_cons.mpr ⟨hc, hd⟩
  cases pending with
  | none => exact .number (List.cons_ne_nil c ds) digits hr hs
  | some n => exact ⟨c :: ds, rest, ks', rfl, digits, hr, rfl, hs⟩

theorem resumes_of_lexFrom : ∀ {cs : List Char} {pending : Option Nat} {offset : Nat}
    {ks : List Lexeme}, lexFrom offset pending cs = ks.map .ok → Resumes pending cs ks
  | [], pending, offset, ks, h => by
      refine resumes_of_withNumber h nofun fun ks hk => ?_
      obtain rfl := List.map_eq_nil_iff.mp hk.symm
      exact .nil
  | c :: cs, pending, offset, ks, h => by
      rw [lexFrom] at h
      split at h
      · rename_i d hd
        obtain ⟨hc, rfl⟩ := digit?_eq_some hd
        exact .digit hc (resumes_of_lexFrom h)
      · rename_i hd
        have hc : ∀ b ∈ (c :: cs).head?, b.isDigit = false :=
          isDigit_head?_cons (digit?_eq_none_iff.mp hd)
        refine resumes_of_withNumber h hc fun ks hk => ?_
        split at hk
        · rename_i hb
          have after : Resumes none cs ks := resumes_of_lexFrom hk
          exact .blank hb after
        · split at hk
          · rename_i kind hs
            obtain ⟨k, ks, rfl, he, hr⟩ := List.map_eq_cons_iff.mp hk.symm
            cases he
            have after : Resumes none cs ks := resumes_of_lexFrom hr.symm
            exact .symbol hs after
          · obtain ⟨k, ks, _, he, _⟩ := List.map_eq_cons_iff.mp hk.symm
            cases he

/-- A text that is read without an error spells what is read. -/
theorem spelled_of_lex {text : String} (h : lex text = ks.map .ok) : Spelled text.toList ks := by
  have whole : Resumes none text.toList ks := resumes_of_lexFrom h
  exact whole

end BottomUp.Calculator
