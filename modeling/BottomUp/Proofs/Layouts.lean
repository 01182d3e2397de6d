import BottomUp.Proofs.Scanning
import Mathlib.Data.List.Chain

/-!
# Writing lexemes down

Lexemes are written down one after the other, each with blank characters behind it and some in
front of the first (`Layout`).  A number may have zeros in front, and two numbers need a blank
character between them.  Every layout is read as its lexemes (`lex_layout`), and every text that
is read without an error is a layout of what is read (`exists_layout_of_lex`).

Reading ends in two other ways.  A text may have a character that belongs to no lexeme.  What
stands before the first such character spells lexemes, and behind them reading fails with the
character and its offset (`exists_lex_of_unexpected`), unless a number before it is too large.

What is too large is told by the text alone.  The numbers that a text spells are its longest runs
of digits (`Spelled.mem_iff`), so reading overflows just if it comes to such a run that denotes
more than a word holds (`lex_overflows_iff`).
-/

namespace BottomUp.Calculator

/-! ## Layouts -/

/-- A lexeme as it is written down. -/
inductive Written where
  /-- An operator or parenthesis. -/
  | symbol (c : Char) : c ∈ ['+', '-', '*', '/', '(', ')'] → Written
  /-- A number that fits a word, with any number of zeros in front. -/
  | number (digits : List Char) : digits ≠ [] → (∀ d ∈ digits, d.isDigit = true) →
      decimal digits ≤ maxInt → Written

namespace Written

/-- The characters it is written with. -/
def text : Written → List Char
  | symbol c _ => [c]
  | number digits _ _ _ => digits

/-- The lexeme that is written. -/
def lexeme : Written → Lexeme
  | symbol c _ => ⟨c.toString, 0⟩
  | number digits _ _ _ => ⟨"num", decimal digits⟩

/-- Is it a number? -/
def isNumber : Written → Bool
  | symbol _ _ => false
  | number _ _ _ _ => true

end Written

/-- Blank characters. -/
abbrev Gap : Type := { cs : List Char // ∀ c ∈ cs, Text.isBlank c = true }

/-- A lexeme with what stands behind it does not run into the next one. -/
def Apart (e e' : Written × Gap) : Prop :=
  e.1.isNumber = true → e'.1.isNumber = true → e.2.val ≠ []

/-- Written lexemes in their order, with blank characters in front of them and behind each. -/
structure Layout where
  /-- What stands in front. -/
  first : Gap
  /-- The lexemes, each with what stands behind it. -/
  entries : List (Written × Gap)
  /-- Two numbers do not touch. -/
  apart : entries.IsChain Apart

namespace Layout

/-- The characters of written lexemes with what stands behind each. -/
def chars (entries : List (Written × Gap)) : List Char :=
  entries.flatMap fun e => e.1.text ++ e.2.val

/-- The text of a layout. -/
def text (l : Layout) : String := String.ofList (l.first.val ++ chars l.entries)

/-- The lexemes of a layout. -/
def lexemes (l : Layout) : List Lexeme := l.entries.map fun e => e.1.lexeme

end Layout

/-! ## Runs of digits -/

/-- Is the character blank, a digit, an operator or a parenthesis? -/
def isExpected (c : Char) : Bool :=
  Text.isBlank c || c.isDigit || ['+', '-', '*', '/', '(', ')'].contains c

/-- The text has a longest run of digits, with something before it and something after. -/
structure IsRun (cs before run after : List Char) : Prop where
  place : cs = before ++ run ++ after
  nonempty : run ≠ []
  digits : ∀ d ∈ run, d.isDigit = true
  left : ∀ c ∈ before.getLast?, c.isDigit = false
  right : ∀ c ∈ after.head?, c.isDigit = false

/-- The text has a number that does not fit a word, and nothing unexpected before it. -/
def HasLarge (cs : List Char) : Prop :=
  ∃ before run after, IsRun cs before run after ∧ (∀ c ∈ before, isExpected c = true) ∧
    maxInt < decimal run

variable {text : String} {cs before run after : List Char} {ks : List Lexeme} {c : Char} {n : Nat}

/-! ## Layouts spell lexemes -/

theorem Spelled.blanks (gap : Gap) (h : Spelled cs ks) : Spelled (gap.val ++ cs) ks := by
  obtain ⟨gap, blank⟩ := gap
  induction gap with
  | nil => exact h
  | cons c gap ih =>
      obtain ⟨hc, blank⟩ := List.forall_mem_cons.mp blank
      exact .blank hc (ih blank)

theorem symbol?_of_mem (h : c ∈ ['+', '-', '*', '/', '(', ')']) : symbol? c = some c.toString :=
  symbol?_of_contains (List.contains_iff_mem.mpr h)

/-- No digit is behind a number. -/
theorem isDigit_behind {e : Written × Gap} {es : List (Written × Gap)}
    (apart : (e :: es).IsChain Apart) (he : e.1.isNumber = true) :
    ∀ c ∈ (e.2.val ++ Layout.chars es).head?, c.isDigit = false := by
  obtain ⟨w, gap, blank⟩ := e
  cases gap with
  | cons b gap => exact isDigit_head?_cons (isDigit_of_isBlank (blank b List.mem_cons_self))
  | nil =>
      cases es with
      | nil => exact nofun
      | cons e es =>
          obtain ⟨⟨b, hb⟩ | ⟨ds, _, _, _⟩, after⟩ := e
          · exact isDigit_head?_cons (isDigit_of_symbol? (symbol?_of_mem hb))
          · exact absurd rfl ((List.isChain_cons_cons.mp apart).1 he rfl)

theorem spelled_chars : ∀ {es : List (Written × Gap)}, es.IsChain Apart →
    Spelled (Layout.chars es) (es.map fun e => e.1.lexeme)
  | [], _ => .nil
  | (.symbol b hb, gap) :: es, apart => by
      have behind := (spelled_chars (List.IsChain.tail apart)).blanks gap
      exact .symbol (symbol?_of_mem hb) behind
  | (.number ds hne hd fits, gap) :: es, apart => by
      have behind := (spelled_chars (List.IsChain.tail apart)).blanks gap
      have number := Spelled.number hne hd (isDigit_behind apart rfl) behind
      rwa [← List.append_assoc] at number

/-- A layout spells its lexemes. -/
theorem Layout.spelled (l : Layout) : Spelled l.text.toList l.lexemes := by
  rw [text, String.toList_ofList]
  exact (spelled_chars l.apart).blanks l.first

theorem Layout.fits (l : Layout) : Fits l.lexemes := by
  intro k hk
  obtain ⟨⟨w, gap⟩, _, rfl⟩ := List.mem_map.mp hk
  cases w with
  | symbol b hb => exact (by decide : 0 ≤ maxInt)
  | number ds hne hd fits => exact fits

/-- What spells lexemes that fit a word is a layout of them. -/
theorem exists_layout (h : Spelled cs ks) (fits : Fits ks) :
    ∃ l : Layout, l.first.val ++ Layout.chars l.entries = cs ∧ l.lexemes = ks := by
  induction h with
  | nil => exact ⟨⟨⟨[], nofun⟩, [], .nil⟩, rfl, rfl⟩
  | @blank c cs ks hb _ ih =>
      obtain ⟨⟨⟨gap, blank⟩, es, apart⟩, rfl, rfl⟩ := ih fits
      exact ⟨⟨⟨c :: gap, List.forall_mem_cons.mpr ⟨hb, blank⟩⟩, es, apart⟩, rfl, rfl⟩
  | @symbol c kind cs ks hs _ ih =>
      obtain ⟨hc, rfl⟩ := mem_of_symbol? hs
      obtain ⟨⟨first, es, apart⟩, rfl, rfl⟩ := ih (List.forall_mem_cons.mp fits).2
      have apart' : ((.symbol c hc, first) :: es).IsChain Apart :=
        List.isChain_cons.mpr ⟨fun _ _ => nofun, apart⟩
      exact ⟨⟨⟨[], nofun⟩, _, apart'⟩, rfl, rfl⟩
  | @number ds cs ks hne hd hc _ ih =>
      obtain ⟨small, fits⟩ := List.forall_mem_cons.mp fits
      obtain ⟨⟨first, es, apart⟩, rfl, rfl⟩ := ih fits
      have apart' : ((.number ds hne hd small, first) :: es).IsChain Apart := by
        refine List.isChain_cons.mpr ⟨fun e he _ number touch => ?_, apart⟩
        -- the text behind would begin with a digit
        obtain ⟨es, rfl⟩ := List.head?_eq_some_iff.mp he
        rw [touch] at hc
        obtain ⟨⟨b, hb⟩ | ⟨ds', hne', hd', _⟩, gap⟩ := e
        · cases number
        · obtain ⟨d, ds', rfl⟩ := List.exists_cons_of_ne_nil hne'
          cases (hc d rfl).symm.trans (hd' d List.mem_cons_self)
      refine ⟨⟨⟨[], nofun⟩, _, apart'⟩, ?_, rfl⟩
      exact List.append_assoc ds first.val (Layout.chars es)

/-! ## Runs are numbers -/

/-- The digits in front of anything else are determined. -/
theorem takeWhile_run (hd : ∀ d ∈ run, d.isDigit = true)
    (ha : ∀ c ∈ after.head?, c.isDigit = false) :
    (run ++ after).takeWhile Char.isDigit = run := by
  rw [List.takeWhile_append_of_pos hd]
  cases after with
  | nil => rw [List.takeWhile_nil, List.append_nil]
  | cons c after =>
      rw [List.takeWhile_cons_of_neg (Bool.eq_false_iff.mp (ha c rfl)), List.append_nil]

namespace IsRun

/-- A run is one of a text with more in front, unless a digit is added right before it. -/
theorem append {front : List Char} (h : IsRun cs before run after)
    (hf : before = [] → ∀ c ∈ front.getLast?, c.isDigit = false) :
    IsRun (front ++ cs) (front ++ before) run after where
  place := by rw [h.place, List.append_assoc, List.append_assoc, List.append_assoc]
  nonempty := h.nonempty
  digits := h.digits
  left c hc := by
    rw [List.getLast?_append] at hc
    rcases Option.or_eq_some_iff.mp hc with hc | ⟨none, hc⟩
    · exact h.left c hc
    · exact hf (List.getLast?_eq_none_iff.mp none) c hc
  right := h.right

/-- Behind something that a run does not reach back to, it is a run of the rest. -/
theorem of_append {front : List Char} (h : IsRun (front ++ cs) (front ++ before) run after) :
    IsRun cs before run after where
  place := by
    have place := h.place
    rwa [List.append_assoc, List.append_assoc, List.append_cancel_left_eq, ← List.append_assoc]
      at place
  nonempty := h.nonempty
  digits := h.digits
  left c hc := h.left c (by rw [List.getLast?_append, Option.mem_def.mp hc]; rfl)
  right := h.right

/-- A run is not at the start of what does not begin with a digit. -/
theorem before_ne_nil (h : IsRun cs before run after) (hc : ∀ c ∈ cs.head?, c.isDigit = false) :
    before ≠ [] := by
  rintro rfl
  obtain ⟨d, run, rfl⟩ := List.exists_cons_of_ne_nil h.nonempty
  rw [h.place] at hc
  cases (hc d rfl).symm.trans (h.digits d List.mem_cons_self)

/-- A run does not begin with something else than a digit. -/
theorem exists_cons (h : IsRun (c :: cs) before run after) (hc : c.isDigit = false) :
    ∃ before', before = c :: before' ∧ IsRun cs before' run after := by
  cases before with
  | nil => exact absurd rfl (h.before_ne_nil (isDigit_head?_cons hc))
  | cons b before =>
      obtain ⟨rfl, _⟩ := List.cons.inj h.place
      have behind : IsRun ([c] ++ cs) ([c] ++ before) run after := h
      exact ⟨before, rfl, behind.of_append⟩

/-- A run of a text that begins with one is that one, or it is behind. -/
theorem eq_or_exists {ds : List Char} (h : IsRun (ds ++ cs) before run after)
    (hd : ∀ d ∈ ds, d.isDigit = true) (hc : ∀ c ∈ cs.head?, c.isDigit = false) :
    run = ds ∨ ∃ before', IsRun cs before' run after := by
  have place := h.place
  rw [List.append_assoc] at place
  rcases List.append_eq_append_iff.mp place with ⟨before', rfl, _⟩ | ⟨ds', rfl, same⟩
  · exact .inr ⟨before', of_append h⟩
  · -- what is before the run would be digits
    have start : before = [] := by
      refine List.getLast?_eq_none_iff.mp (Option.eq_none_iff_forall_ne_some.mpr fun c hl => ?_)
      have digit := hd c (List.mem_append_left _ (List.mem_of_getLast? hl))
      cases (h.left c hl).symm.trans digit
    rw [start, List.nil_append] at hd
    left
    rw [start, List.nil_append, ← takeWhile_run h.digits h.right, same, takeWhile_run hd hc]

end IsRun

/-- A character that is no digit adds no run. -/
theorem exists_isRun_cons_iff (hc : c.isDigit = false) :
    (∃ before run after, IsRun (c :: cs) before run after ∧ decimal run = n) ↔
      ∃ before run after, IsRun cs before run after ∧ decimal run = n := by
  constructor
  · rintro ⟨before, run, after, isRun, value⟩
    obtain ⟨before', -, behind⟩ := isRun.exists_cons hc
    exact ⟨before', run, after, behind, value⟩
  · rintro ⟨before, run, after, isRun, value⟩
    have nondigit : ∀ c' ∈ [c].getLast?, c'.isDigit = false := by
      rintro _ ⟨⟩
      exact hc
    exact ⟨c :: before, run, after, isRun.append fun _ => nondigit, value⟩

/-- The longest runs of digits in a text are the numbers that it spells. -/
theorem Spelled.mem_iff (h : Spelled cs ks) : ⟨"num", n⟩ ∈ ks ↔
    ∃ before run after, IsRun cs before run after ∧ decimal run = n := by
  induction h with
  | nil =>
      refine iff_of_false List.not_mem_nil ?_
      rintro ⟨before, run, after, run?, -⟩
      have place := run?.place
      simp [run?.nonempty] at place
  | @blank c cs ks hb _ ih =>
      exact ih.trans (exists_isRun_cons_iff (isDigit_of_isBlank hb)).symm
  | @symbol c kind cs ks hs _ ih =>
      have other : (⟨"num", n⟩ : Lexeme) ≠ ⟨kind, 0⟩ := by
        rintro ⟨⟩
        exact kind_ne_of_symbol? hs rfl
      rw [List.mem_cons, or_iff_right other]
      exact ih.trans (exists_isRun_cons_iff (isDigit_of_symbol? hs)).symm
  | @number ds cs ks hne hd hc _ ih =>
      rw [List.mem_cons, ih]
      constructor
      · rintro (same | ⟨before, run, after, isRun, value⟩)
        · cases same
          exact ⟨[], ds, cs, ⟨rfl, hne, hd, nofun, hc⟩, rfl⟩
        · refine ⟨ds ++ before, run, after, isRun.append fun start => ?_, value⟩
          exact absurd start (isRun.before_ne_nil hc)
      · rintro ⟨before, run, after, isRun, rfl⟩
        rcases isRun.eq_or_exists hd hc with rfl | ⟨before', isRun⟩
        · exact .inl rfl
        · exact .inr ⟨before', run, after, isRun, rfl⟩

/-- The numbers that are spelled fit just if no run denotes too much. -/
theorem Spelled.fits_iff (h : Spelled cs ks) :
    Fits ks ↔ ∀ before run after, IsRun cs before run after → decimal run ≤ maxInt := by
  constructor
  · intro fits before run after isRun
    exact fits _ (h.mem_iff.mpr ⟨before, run, after, isRun, rfl⟩)
  · intro small k hk
    cases h.proper k hk with
    | number n =>
        obtain ⟨before, run, after, isRun, rfl⟩ := h.mem_iff.mp hk
        exact small before run after isRun
    | symbol _ => exact (by decide : 0 ≤ maxInt)

/-! ## Unexpected characters -/

theorem isExpected_of_isBlank (h : Text.isBlank c = true) : isExpected c = true := by
  simp [isExpected, h]

theorem isExpected_of_isDigit (h : c.isDigit = true) : isExpected c = true := by
  simp [isExpected, h]

theorem isExpected_of_symbol? {kind : String} (h : symbol? c = some kind) :
    isExpected c = true := by
  simp [isExpected, (mem_of_symbol? h).1]

theorem symbol?_eq_none_of_unexpected (h : isExpected c = false) : symbol? c = none :=
  Option.eq_none_iff_forall_ne_some.mpr fun _ =>
    mt isExpected_of_symbol? (Bool.eq_false_iff.mp h)

theorem isDigit_of_unexpected (h : isExpected c = false) : c.isDigit = false :=
  Bool.eq_false_iff.mpr (mt isExpected_of_isDigit (Bool.eq_false_iff.mp h))

theorem isBlank_of_unexpected (h : isExpected c = false) : Text.isBlank c = false :=
  Bool.eq_false_iff.mpr (mt isExpected_of_isBlank (Bool.eq_false_iff.mp h))

/-- Nothing unexpected is in what spells lexemes. -/
theorem Spelled.isExpected (h : Spelled cs ks) : ∀ c ∈ cs, isExpected c = true := by
  induction h with
  | nil => exact nofun
  | blank hb _ ih => exact List.forall_mem_cons.mpr ⟨isExpected_of_isBlank hb, ih⟩
  | symbol hs _ ih => exact List.forall_mem_cons.mpr ⟨isExpected_of_symbol? hs, ih⟩
  | number _ hd _ _ ih =>
      exact List.forall_mem_append.mpr ⟨fun d h => isExpected_of_isDigit (hd d h), ih⟩

/-- A digit in front of a number belongs to it, and in front of anything else it is one. -/
theorem Spelled.exists_digit (hc : c.isDigit = true) (h : Spelled cs ks) :
    ∃ ks', Spelled (c :: cs) ks' := by
  have single : ∀ d ∈ [c], d.isDigit = true := List.forall_mem_singleton.mpr hc
  have alone (hs : ∀ c ∈ cs.head?, c.isDigit = false) :
      Spelled ([c] ++ cs) (⟨"num", decimal [c]⟩ :: ks) :=
    .number (List.cons_ne_nil c []) single hs h
  cases h with
  | nil => exact ⟨_, alone nofun⟩
  | blank hb _ => exact ⟨_, alone (isDigit_head?_cons (isDigit_of_isBlank hb))⟩
  | symbol hs _ => exact ⟨_, alone (isDigit_head?_cons (isDigit_of_symbol? hs))⟩
  | @number ds cs ks _ hd hs behind =>
      exact ⟨_, .number (List.cons_ne_nil c ds) (List.forall_mem_cons.mpr ⟨hc, hd⟩) hs behind⟩

/-- A text without unexpected characters spells lexemes. -/
theorem exists_spelled : ∀ {cs : List Char}, (∀ c ∈ cs, isExpected c = true) →
    ∃ ks, Spelled cs ks
  | [], _ => ⟨[], .nil⟩
  | c :: cs, h => by
      obtain ⟨hc, h⟩ := List.forall_mem_cons.mp h
      obtain ⟨ks, behind⟩ := exists_spelled h
      rw [Calculator.isExpected, Bool.or_eq_true, Bool.or_eq_true] at hc
      rcases hc with (blank | digit) | symbol
      · exact ⟨ks, .blank blank behind⟩
      · exact behind.exists_digit digit
      · exact ⟨_, .symbol (symbol?_of_contains symbol) behind⟩

/-- Every text either spells lexemes, or it has a first unexpected character and spells lexemes
before that. -/
theorem exists_spelled_or_unexpected (cs : List Char) : (∃ ks, Spelled cs ks) ∨
    ∃ before c after ks, cs = before ++ c :: after ∧ isExpected c = false ∧ Spelled before ks := by
  have all : ∀ c ∈ cs.takeWhile isExpected, isExpected c = true :=
    List.all_eq_true.mp List.all_takeWhile
  obtain ⟨ks, spelled⟩ := exists_spelled all
  have split : cs.takeWhile isExpected ++ cs.dropWhile isExpected = cs :=
    List.takeWhile_append_dropWhile
  cases rest : cs.dropWhile isExpected with
  | nil =>
      rw [rest, List.append_nil] at split
      exact .inl ⟨ks, split ▸ spelled⟩
  | cons c after =>
      have stops := List.head?_dropWhile_not isExpected cs
      rw [rest] at stops split
      exact .inr ⟨_, c, after, ks, split.symm, stops, spelled⟩

/-- Reading fails at an unexpected character behind the lexemes before it, if they fit. -/
theorem lexFrom_of_unexpected (h : Spelled before ks) (hc : isExpected c = false) (offset : Nat) :
    lexFrom offset none (before ++ c :: after) =
      offeredBefore [.error (.unexpected c (offset + bytes before))] ks := by
  have fails : lexFrom (offset + bytes before) none (c :: after) =
      [.error (.unexpected c (offset + bytes before))] := by
    rw [lexFrom, digit?_eq_none_iff.mpr (isDigit_of_unexpected hc)]
    simp only [withNumber, isBlank_of_unexpected hc, symbol?_eq_none_of_unexpected hc]
    rfl
  rw [h.lexFrom_append (isDigit_head?_cons (isDigit_of_unexpected hc)), fails]

/-! ## Large numbers -/

/-- In what spells lexemes there is a large number just if they do not fit. -/
theorem Spelled.hasLarge_iff (h : Spelled cs ks) : HasLarge cs ↔ ¬ Fits ks := by
  simp only [h.fits_iff, Classical.not_forall, Int.not_le]
  constructor
  · rintro ⟨before, run, after, isRun, -, large⟩
    exact ⟨before, run, after, isRun, large⟩
  · rintro ⟨before, run, after, isRun, large⟩
    refine ⟨before, run, after, isRun, fun c hc => h.isExpected c ?_, large⟩
    rw [isRun.place, List.append_assoc]
    exact List.mem_append_left _ hc

/-- What has nothing unexpected at the front of a text ends before the first that is. -/
theorem exists_of_append_eq {front back : List Char} (hf : ∀ c ∈ front, isExpected c = true)
    (hc : isExpected c = false) (h : front ++ back = before ++ c :: after) :
    ∃ rest, before = front ++ rest ∧ back = rest ++ c :: after := by
  rcases List.append_eq_append_iff.mp h with split | ⟨rest, rfl, same⟩
  · exact split
  · cases rest with
    | nil => exact ⟨[], (List.append_nil _).symm.trans (List.append_nil _).symm, same.symm⟩
    | cons d rest =>
        obtain ⟨rfl, _⟩ := List.cons.inj same
        have expected := hf c (List.mem_append_right before List.mem_cons_self)
        cases hc.symm.trans expected

/-- A large number that is read stands before the first unexpected character. -/
theorem hasLarge_append_iff (hc : isExpected c = false) :
    HasLarge (before ++ c :: after) ↔ HasLarge before := by
  constructor
  · rintro ⟨left, run, right, isRun, expected, large⟩
    have known : ∀ c ∈ left ++ run, isExpected c = true :=
      List.forall_mem_append.mpr ⟨expected, fun d hd => isExpected_of_isDigit (isRun.digits d hd)⟩
    obtain ⟨rest, rfl, rfl⟩ := exists_of_append_eq known hc isRun.place.symm
    refine ⟨left, run, rest, ⟨rfl, isRun.nonempty, isRun.digits, isRun.left, fun c' hc' => ?_⟩,
      expected, large⟩
    exact isRun.right c' (by rw [List.head?_append, Option.mem_def.mp hc']; rfl)
  · rintro ⟨left, run, right, isRun, expected, large⟩
    refine ⟨left, run, right ++ c :: after, ⟨?_, isRun.nonempty, isRun.digits, isRun.left,
      fun c' hc' => ?_⟩, expected, large⟩
    · rw [isRun.place, List.append_assoc]
    · rw [List.head?_append] at hc'
      rcases Option.or_eq_some_iff.mp hc' with hc' | ⟨_, hc'⟩
      · exact isRun.right c' hc'
      · cases hc'
        exact isDigit_of_unexpected hc

/-! ## The result -/

theorem error_notMem_map {e : LexError} :
    .error e ∉ ks.map (.ok : Lexeme → Except LexError Lexeme) := by
  intro h
  obtain ⟨k, _, hk⟩ := List.mem_map.mp h
  cases hk

theorem lex_layout (l : Layout) : lex l.text = l.lexemes.map .ok := by
  rw [lex_of_spelled l.spelled, offered_of_fits l.fits]

theorem exists_layout_of_lex (h : lex text = ks.map .ok) :
    ∃ l : Layout, l.text = text ∧ l.lexemes = ks := by
  have spelled := spelled_of_lex h
  have fits : Fits ks := by
    by_contra large
    obtain ⟨front, rest, -, breaks⟩ := exists_offered large
    rw [lex_of_spelled spelled, breaks] at h
    exact error_notMem_map (h ▸ List.mem_append_right _ List.mem_cons_self)
  obtain ⟨l, chars, lexemes⟩ := exists_layout spelled fits
  exact ⟨l, by rw [Layout.text, chars, String.ofList_toList], lexemes⟩

/-- Behind the lexemes before an unexpected character reading fails with it. -/
theorem exists_lex_of_unexpected (place : text.toList = before ++ c :: after)
    (hb : ∀ c ∈ before, isExpected c = true) (hc : isExpected c = false)
    (small : ¬ HasLarge before) :
    ∃ ks : List Lexeme, lex (String.ofList before) = ks.map .ok ∧
      lex text = ks.map .ok ++ [.error (.unexpected c (bytes before))] := by
  obtain ⟨ks, spelled⟩ := exists_spelled hb
  have fits : Fits ks := not_not.mp (mt spelled.hasLarge_iff.mpr small)
  refine ⟨ks, ?_, ?_⟩
  · rw [lex, String.toList_ofList, spelled.lexFrom_eq, offered_of_fits fits]
  · rw [lex, place, lexFrom_of_unexpected spelled hc, offeredBefore_of_fits fits, Nat.zero_add]

/-- What is read is what is offered of the lexemes before an unexpected character, and then no
overflow. -/
theorem exists_lex_eq (text : String) : ∃ ks rest, lex text = offeredBefore rest ks ∧
    (HasLarge text.toList ↔ ¬ Fits ks) ∧ .error .overflow ∉ rest := by
  rcases exists_spelled_or_unexpected text.toList with
    ⟨ks, spelled⟩ | ⟨before, c, after, ks, place, hc, spelled⟩
  · refine ⟨ks, [], ?_, spelled.hasLarge_iff, List.not_mem_nil⟩
    rw [lex, spelled.lexFrom_eq, offeredBefore_nil]
  · refine ⟨ks, [.error (.unexpected c (0 + bytes before))], ?_, ?_, by simp⟩
    · rw [lex, place, lexFrom_of_unexpected spelled hc]
    · rw [place, hasLarge_append_iff hc, spelled.hasLarge_iff]

/-- Reading overflows just if it comes to a number that is too large. -/
theorem lex_overflows_iff : (∃ ks : List Lexeme, lex text = ks.map .ok ++ [.error .overflow]) ↔
    HasLarge text.toList := by
  obtain ⟨ks, rest, read, large, other⟩ := exists_lex_eq text
  rw [read, large]
  constructor
  · rintro ⟨ks', same⟩ fits
    rw [offeredBefore_of_fits fits] at same
    have overflows : .error .overflow ∈ ks.map .ok ++ rest :=
      same ▸ List.mem_append_right _ List.mem_cons_self
    exact (List.mem_append.mp overflows).elim error_notMem_map other
  · intro unfit
    obtain ⟨front, back, -, breaks⟩ := exists_offeredBefore unfit
    exact ⟨front, breaks rest⟩

/-- Writing lexemes down and reading them are inverse.  Every layout is read as its lexemes, and
what is read as lexemes is a layout of them.

A text with an unexpected character is read as the lexemes before the first one, if all numbers
there fit a word, and then fails with that character and its offset in bytes.  Reading overflows
just if there is a longest run of digits that denotes too much and nothing unexpected before it.
Lexemes can be asked for one at a time, with the number kept in a word: that yields the same, and
it overflows at a number just if all digits together denote too much. -/
theorem lex_inverts :
    (∀ l : Layout, lex l.text = l.lexemes.map .ok) ∧
    (∀ text (ks : List Lexeme), lex text = ks.map .ok →
      ∃ l : Layout, l.text = text ∧ l.lexemes = ks) ∧
    (∀ text before c after, text.toList = before ++ c :: after →
      (∀ d ∈ before, isExpected d = true) → isExpected c = false → ¬ HasLarge before →
      ∃ ks : List Lexeme, lex (String.ofList before) = ks.map .ok ∧
        lex text = ks.map .ok ++ [.error (.unexpected c (bytes before))]) ∧
    (∀ text, (∃ ks : List Lexeme, lex text = ks.map .ok ++ [.error .overflow]) ↔
      HasLarge text.toList) ∧
    (∀ text, lex text = scanAll 0 text.toList) ∧
    ∀ d offset cs, d.isDigit = true →
      (readDigits (d.toNat - '0'.toNat : Nat) offset cs = none ↔
        maxInt < decimal (d :: cs.takeWhile Char.isDigit)) := by
  exact ⟨lex_layout, fun _ _ => exists_layout_of_lex, fun _ _ _ _ => exists_lex_of_unexpected,
    fun _ => lex_overflows_iff, fun text => lexFrom_eq_scanAll 0 text.toList,
    fun _ _ _ => readDigits_eq_none_iff⟩

/-- A number with zeros in front and a blank character of three bytes before an unexpected
character. -/
theorem lex_inverts_mixed : ∃ before : List Char,
    "007\u3000+1 é*".toList = before ++ 'é' :: ['*'] ∧ (∀ d ∈ before, isExpected d = true) ∧
      isExpected 'é' = false ∧ ¬ HasLarge before ∧ bytes before = 9 ∧
      ∃ ks : List Lexeme, lex (String.ofList before) = ks.map .ok ∧
        lex "007\u3000+1 é*" = ks.map .ok ++ [.error (.unexpected 'é' (bytes before))] := by
  have expected : ∀ d ∈ "007\u3000+1 ".toList, isExpected d = true :=
    List.all_eq_true.mp (by decide)
  have small : ¬ HasLarge "007\u3000+1 ".toList := by
    intro large
    obtain ⟨ks, read⟩ := lex_overflows_iff.mpr large
    have known : lex "007\u3000+1 " = [⟨"num", 7⟩, ⟨"+", 0⟩, ⟨"num", 1⟩].map .ok := by decide
    exact error_notMem_map (known ▸ read ▸ List.mem_append_right _ List.mem_cons_self)
  have place : "007\u3000+1 é*".toList = "007\u3000+1 ".toList ++ 'é' :: ['*'] := by decide
  exact ⟨_, place, expected, by decide, small, by decide,
    lex_inverts.2.2.1 _ _ 'é' ['*'] place expected (by decide) small⟩

end BottomUp.Calculator
