import BottomUp.Calculator.CommandLine
import BottomUp.Proofs.ArithmeticTable
import BottomUp.Proofs.BrokenStreams
import BottomUp.Proofs.Consumption
import BottomUp.Proofs.Steps

/-!
# Evaluation computes arithmetic

The parser gets over a phrase wherever it is awaited (`passes`): it shifts a number and reduces
it, it goes over what is in parentheses and closes them, and it goes over both operands of an
operator and puts them together.  What may stand behind a phrase is enough to tell when.  So a
sum is accepted with its value (`exists_parse_phrase`).  A number that does not fit a word
breaks the stream off, but nothing before it is wrong, so the parse ends there.

Conversely, what is accepted has a tree, the frontier of that is the frontier of a phrase, and
the text spells it (`exists_spelled_of_evaluateWith`).  Every parse ends, since all productions
that are reduced have terminals (`exists_parse_lex`).  Together this says what every text
evaluates to and how the calculator responds (`evaluates_arithmetic`).
-/

namespace BottomUp.Calculator

/-- The parser of arithmetic with a table. -/
abbrev parser (table : ParseTable String String) : Parser Lexeme String String Value :=
  ⟨grammar, table, reader⟩

/-- The result of a value. -/
def Result.ofValue : Value → Result
  | some i => .value i
  | none => .overflow

/-- The text is an expression with this value.  It is `none` if a number or the value of a part
does not fit a word. -/
def Denotes (text : String) (value : Value) : Prop :=
  ∃ e : Phrase 0, Spelled text.toList e.lexemes ∧ e.value = value

/-- Wherever the phrase is awaited the parser gets over it and puts an expression on its stack.
If all numbers fit a word, that has the value of the phrase. -/
def Passes (method : Method) (table : ParseTable String String) {l : Nat} (e : Phrase l) : Prop :=
  ∀ {xs : List (Symbol String String × Value)} {least : Nat} {closer : Lookahead String}
    {w : List Lexeme} {c : Configuration Lexeme Value LexError},
    Awaits (xs.map Prod.fst) least closer → least ≤ l →
    EndsAt l closer (w.head?.map Lexeme.kind) → c.Bears (outline method) xs (e.lexemes ++ w) →
    ∃ v c', (parser table).Goes c c' ∧ c'.Bears (outline method) (xs ++ [(expr, v)]) w ∧
      (Fits e.lexemes → v = e.value)

variable {method : Method} {verdict : Nat → Lookahead String → Verdict String}
  {table : ParseTable String String} {xs ys : List (Symbol String String × Value)} {l p : Nat}
  {k : Lexeme} {w : List Lexeme} {text : String} {c : Configuration Lexeme Value LexError}

theorem ofValue_eq_value {v : Value} {i : Int} : Result.ofValue v = .value i ↔ v = some i := by
  cases v <;> simp [Result.ofValue]

/-- Only what is accepted has a value. -/
theorem exists_accepted_of_resultOf {how : Ending Lexeme String Value LexError}
    {stack : List (Entry Value)} {i : Int} (h : resultOf how stack = .value i) :
    ∃ v, how = .accepted v := by
  unfold resultOf at h
  split at h
  · cases h
  · split at h <;> first | exact ⟨_, rfl⟩ | cases h

/-- Every production but the first has a terminal on its right-hand side. -/
theorem consuming : grammar.Consuming 0 := by
  intro p production hp hne
  rcases getElem?_cases hp with ⟨rfl, _⟩ | ⟨op, _, rfl⟩ | ⟨_, rfl⟩ | ⟨_, rfl⟩
  · exact absurd rfl hne
  · exact ⟨op.symbol, by simp [operation]⟩
  · exact ⟨"(", by simp [bracketed]⟩
  · exact ⟨"num", by simp [literal]⟩

/-! ## The parser gets over phrases -/

section

variable (hr : (outline method).Resolved grammar {} 0 verdict table)

include hr

/-- The table shifts the next lexeme. -/
theorem exists_shifted (hc : c.Bears (outline method) xs (k :: w))
    (ha : ∀ {i}, (outline method).Spells (xs.map Prod.fst) i →
      ∃ j, table.action? i (some k.kind) = some (.shift j)) :
    ∃ c', (parser table).step c = .continues c' ∧
      c'.Bears (outline method) (xs ++ [reader.item k]) w := by
  exact Parser.exists_shifted (m := parser table) hr.drives hc ha

/-- The table reduces what stands behind the path. -/
theorem exists_completed {production : Production String String Value}
    (hp : grammar.productions[p]? = some production) (hys : ys.map Prod.fst = production.rhs)
    (hc : c.Bears (outline method) (xs ++ ys) w)
    (ha : ∀ {i}, (outline method).Spells (xs.map Prod.fst ++ production.rhs) i →
      table.action? i (w.head?.map Lexeme.kind) = some (.reduce p)) :
    ∃ c', (parser table).step c = .continues c' ∧ c'.Bears (outline method)
      (xs ++ [(.nonterminal production.lhs, production.act (ys.map Prod.snd))]) w := by
  exact Parser.exists_completed (m := parser table) (lawful method) hr.drives hp hys hc ha

theorem passes_number (n : Nat) : Passes method table (.number n) := by
  intro xs least closer w c hπ _ ends hc
  obtain ⟨c₁, shifted, hc₁⟩ := exists_shifted hr hc (action_literal hr hπ)
  obtain ⟨c₂, reduced, hc₂⟩ := exists_completed hr getElem?_literal rfl hc₁
    fun hi => action_literal_read hr hπ hi ends.ends
  refine ⟨_, c₂, .step shifted (.step reduced .refl), hc₂, fun fits => ?_⟩
  have small : (n : Int) ≤ maxInt := fits _ List.mem_cons_self
  have large : minInt ≤ n := (by decide : minInt ≤ 0).trans (Int.natCast_nonneg n)
  exact (if_pos ⟨large, small⟩).symm

theorem passes_group {e : Phrase 0} (he : Passes method table e) :
    Passes method table (.group e) := by
  intro xs least closer w c hπ _ ends hc
  rw [Phrase.lexemes, List.cons_append, List.append_assoc] at hc
  obtain ⟨c₁, opening, hc₁⟩ := exists_shifted hr hc (action_opening hr hπ)
  have awaits : Awaits ((xs ++ [reader.item ⟨"(", 0⟩]).map Prod.fst) 0 (some ")") := by
    rw [List.map_append]
    exact hπ.opened
  obtain ⟨v, c₂, inside, hc₂, value⟩ := he awaits (Nat.le_refl 0) (.inl rfl) hc₁
  obtain ⟨c₃, closing, hc₃⟩ := exists_shifted hr hc₂ fun hi => by
    rw [List.append_assoc, List.map_append] at hi
    exact action_closing hr hπ hi
  rw [List.append_assoc, List.append_assoc] at hc₃
  obtain ⟨c₄, reduced, hc₄⟩ := exists_completed hr getElem?_bracketed rfl hc₃
    fun hi => action_bracketed_read hr hπ hi ends.ends
  refine ⟨v, c₄, ?_, hc₄, fun fits => value fun k hk => fits k ?_⟩
  · exact .step opening (inside.trans (.step closing (.step reduced .refl)))
  · exact List.mem_cons_of_mem _ (List.mem_append_left _ hk)

theorem passes_join {op : Operator} {left : Phrase op.level} {right : Phrase (op.level + 1)}
    (hleft : Passes method table left) (hright : Passes method table right) :
    Passes method table (.join op rfl left right) := by
  intro xs least closer w c hπ hl ends hc
  rw [Phrase.lexemes, List.append_assoc, List.cons_append] at hc
  obtain ⟨v, c₁, before, hc₁, value⟩ := hleft hπ hl (.inr ⟨op, rfl, Nat.le_refl _⟩) hc
  obtain ⟨c₂, operator, hc₂⟩ := exists_shifted hr hc₁ fun hi => by
    rw [List.map_append] at hi
    exact action_operator hr hπ hl hi
  rw [List.append_assoc] at hc₂
  have awaits : Awaits ((xs ++ ([(expr, v)] ++ [reader.item op.lexeme])).map Prod.fst)
      (op.level + 1) closer := by
    rw [List.map_append]
    exact hπ.operand op
  obtain ⟨v', c₃, behind, hc₃, value'⟩ :=
    hright awaits (Nat.le_refl _) (ends.mono (Nat.le_succ _)) hc₂
  rw [List.append_assoc] at hc₃
  obtain ⟨c₄, reduced, hc₄⟩ := exists_completed hr (getElem?_operation op) rfl hc₃
    fun hi => action_operation hr hπ op hi ends
  refine ⟨_, c₄, ?_, hc₄, fun fits => ?_⟩
  · exact before.trans (.step operator (behind.trans (.step reduced .refl)))
  · obtain ⟨hv, hrest⟩ := List.forall_mem_append.mp fits
    obtain ⟨_, hv'⟩ := List.forall_mem_cons.mp hrest
    rw [value hv, value' hv']
    rfl

/-- The parser gets over every phrase. -/
theorem passes (e : Phrase l) : Passes method table e := by
  induction e with
  | number n => exact passes_number hr n
  | group e ih => exact passes_group hr ih
  | lift e ih =>
      intro xs least closer w c hπ hl ends hc
      exact ih hπ (hl.trans (Nat.le_succ _)) (ends.mono (Nat.le_succ _)) hc
  | join op level left right ihl ihr =>
      subst level
      exact passes_join hr ihl ihr

/-- A sum is accepted, and nothing is left on the stack but its bottom. -/
theorem exists_parse_phrase (e : Phrase 0) : ∃ steps v c,
    (parser table).parse steps (e.lexemes.map .ok : List (Except LexError Lexeme)) =
      some (.accepted v, c) ∧ c.stack = [⟨0, none⟩] ∧ (Fits e.lexemes → v = e.value) := by
  obtain ⟨c₀, begun, run⟩ := Parser.exists_begun (m := parser table) hr.drives e.lexemes
  rw [← List.append_nil e.lexemes] at begun
  have whole : Awaits (([] : List (Symbol String String × Value)).map Prod.fst) 0 none := .start
  obtain ⟨v, c₁, goes, hc₁, value⟩ := passes hr e whole (Nat.le_refl 0) (.inl rfl) begun
  obtain ⟨i, hi⟩ := hc₁.exists_spells
  obtain ⟨c₂, accepted, bottom⟩ := Parser.exists_accepted (m := parser table) hr.drives
    getElem?_sentence rfl hc₁ ⟨i, hi, action_accept hr hi⟩
  obtain ⟨steps, ends⟩ := run goes accepted
  exact ⟨steps, v, c₂, ends, bottom, value⟩

/-! ## The result -/

/-- The steps that evaluation takes are enough to end the parse. -/
theorem exists_parse_lex (text : String) : ∃ how c,
    (parser table).parse (2 * (lex text).length + 2) (lex text) = some (how, c) := by
  obtain ⟨⟨how, c⟩, h⟩ := Parser.exists_parse_of_consuming (m := parser table) (lawful method)
    hr.drives consuming (lex text) (Nat.lt_add_of_pos_right Nat.two_pos)
  exact ⟨how, c, h⟩

theorem evaluateWith_of_parse {steps : Nat} {how : Ending Lexeme String Value LexError}
    (h : (parser table).parse steps (lex text) = some (how, c)) :
    evaluateWith table text = some (resultOf how c.stack) := by
  obtain ⟨how', c', enough⟩ := exists_parse_lex hr text
  obtain ⟨rfl, rfl⟩ := Parser.parse_eq h enough
  show Option.map _ _ = _
  rw [enough, Option.map_some]

/-- What spells a phrase evaluates to the value of the phrase. -/
theorem evaluateWith_of_spelled {e : Phrase 0} (h : Spelled text.toList e.lexemes) :
    evaluateWith table text = some (.ofValue e.value) := by
  obtain ⟨steps, v, c, accepted, bottom, value⟩ := exists_parse_phrase hr e
  by_cases fits : Fits e.lexemes
  · rw [← offered_of_fits fits, ← lex_of_spelled h] at accepted
    rw [evaluateWith_of_parse hr accepted, bottom, value fits]
    cases e.value <;> rfl
  · -- a number is too large, and the stream breaks off there
    obtain ⟨front, rest, all, breaks⟩ := exists_offered fits
    rw [all] at accepted
    obtain ⟨how, d, ends⟩ := exists_parse_lex hr text
    rw [evaluateWith_of_parse hr ends]
    rw [lex_of_spelled h, breaks] at ends
    obtain rfl := Parser.lexical_of_accepted (lawful method) hr.drives accepted ends
    have none : e.value = none :=
      Option.eq_none_iff_forall_ne_some.mpr fun i hi => fits (e.fits_of_value hi)
    rw [none, resultOf]
    split <;> rfl

/-- Only what spells a phrase evaluates to a value. -/
theorem exists_spelled_of_evaluateWith {i : Int} (h : evaluateWith table text = some (.value i)) :
    ∃ e : Phrase 0, Spelled text.toList e.lexemes := by
  obtain ⟨how, c, ends⟩ := exists_parse_lex hr text
  rw [evaluateWith_of_parse hr ends, Option.some.injEq] at h
  obtain ⟨v, rfl⟩ := exists_accepted_of_resultOf h
  obtain ⟨children, tree, input_eq⟩ :=
    Parser.exists_tree_of_parse (m := parser table) (lawful method) hr.drives ends
  have spelled := spelled_of_lex input_eq
  obtain ⟨e, he⟩ := exists_phrase_of_sentence tree spelled.proper
  exact ⟨e, he ▸ spelled⟩

end

/-- Either method has a table, and texts are evaluated with that. -/
theorem exists_table (method : Method) : ∃ table verdict,
    (outline method).Resolved grammar {} 0 verdict table ∧
      ∀ text, evaluate method text = evaluateWith table text := by
  obtain ⟨table, verdict, compiled, hr, _⟩ :=
    Grammar.exists_table_of_settled validate_grammar (settled method)
  refine ⟨table, verdict, hr, fun text => ?_⟩
  have found : table? method = some table := by
    rw [table?, compiled]
    rfl
  rw [evaluate, found, Option.bind_some]

theorem exists_evaluate (method : Method) (text : String) :
    ∃ result, evaluate method text = some result := by
  obtain ⟨table, verdict, hr, evaluate_eq⟩ := exists_table method
  obtain ⟨how, c, ends⟩ := exists_parse_lex hr text
  exact ⟨_, (evaluate_eq text).trans (evaluateWith_of_parse hr ends)⟩

theorem evaluate_of_denotes {value : Value} (h : Denotes text value) :
    evaluate method text = some (.ofValue value) := by
  obtain ⟨table, verdict, hr, evaluate_eq⟩ := exists_table method
  obtain ⟨e, spelled, rfl⟩ := h
  exact (evaluate_eq text).trans (evaluateWith_of_spelled hr spelled)

theorem denotes_of_evaluate {i : Int} (h : evaluate method text = some (.value i)) :
    Denotes text (some i) := by
  obtain ⟨table, verdict, hr, evaluate_eq⟩ := exists_table method
  rw [evaluate_eq] at h
  obtain ⟨e, spelled⟩ := exists_spelled_of_evaluateWith hr h
  rw [evaluateWith_of_spelled hr spelled] at h
  exact ⟨e, spelled, ofValue_eq_value.mp (Option.some.inj h)⟩

/-- With a value, the text is read without an error. -/
theorem denotes_some_iff {i : Int} :
    Denotes text (some i) ↔ ∃ e : Phrase 0, lex text = e.lexemes.map .ok ∧ e.value = some i := by
  constructor
  · rintro ⟨e, spelled, value⟩
    exact ⟨e, by rw [lex_of_spelled spelled, offered_of_fits (e.fits_of_value value)], value⟩
  · rintro ⟨e, read, value⟩
    exact ⟨e, spelled_of_lex read, value⟩

/-! ## The response -/

theorem respond_of_evaluate {args : List String} {method? : Option Method} {dot : Bool}
    {result : Result} (ha : Arguments.read {} args = .ok ⟨method?, dot, some text⟩)
    (hm : method?.getD .lr1 = method) (he : evaluate method text = some result) :
    respond args = result.respond (if dot then drawing method else "") := by
  subst hm
  rw [respond, ha]
  simp only [he]

theorem exit_eq_zero_iff {written : String} {result : Result} :
    (result.respond written).exit = 0 ↔ ∃ i, result = .value i := by
  cases result <;> simp [Result.respond]

/-- For both methods and every text, evaluation comes to a result.  It is a value just if the
text is an expression with this value, and then the text is read without an error.  It is an
overflow if the text is an expression in which a number or the value of a part does not fit a
word.

So the calculator exits with 0 just if the text is an expression with a value, and it writes
that value.  It exits with 101 if the text is an expression without one, and never with 0 if
it is not an expression. -/
theorem evaluates_arithmetic (method : Method) (text : String) :
    ∃ result, evaluate method text = some result ∧
      (∀ i, result = .value i ↔ Denotes text (some i)) ∧
      (∀ i, Denotes text (some i) ↔
        ∃ e : Phrase 0, lex text = e.lexemes.map .ok ∧ e.value = some i) ∧
      (Denotes text none → result = .overflow) ∧
      ∀ args method? dot, Arguments.read {} args = .ok ⟨method?, dot, some text⟩ →
        method?.getD .lr1 = method →
        ((respond args).exit = 0 ↔ ∃ i, Denotes text (some i)) ∧
        (∀ i, Denotes text (some i) → respond args =
          ⟨0, (if dot then drawing method else "") ++ toString i ++ "\n", ""⟩) ∧
        (Denotes text none → (respond args).exit = 101) ∧
        ((∀ value, ¬ Denotes text value) → (respond args).exit ≠ 0) := by
  obtain ⟨result, evaluated⟩ := exists_evaluate method text
  have of_denotes {value : Value} (h : Denotes text value) : result = .ofValue value :=
    Option.some.inj (evaluated.symm.trans (evaluate_of_denotes h))
  have value_iff (i : Int) : result = .value i ↔ Denotes text (some i) :=
    ⟨fun h => denotes_of_evaluate (h ▸ evaluated), of_denotes⟩
  refine ⟨result, evaluated, value_iff, fun i => denotes_some_iff, of_denotes, ?_⟩
  intro args method? dot ha hm
  rw [respond_of_evaluate ha hm evaluated]
  have zero : (result.respond (if dot then drawing method else "")).exit = 0 ↔
      ∃ i, Denotes text (some i) := by
    simp only [exit_eq_zero_iff, value_iff]
  refine ⟨zero, fun i h => ?_, fun h => ?_, fun never h => ?_⟩
  · rw [of_denotes h]
    rfl
  · rw [of_denotes h]
    rfl
  · obtain ⟨i, hi⟩ := zero.mp h
    exact never _ hi

/-- Every text can be given for an expression. -/
example (text : String) : Arguments.read {} ["-a", "slr", "--", text] =
    .ok ⟨some .slr, false, some text⟩ :=
  rfl

/-- Division drops the fraction. -/
example : evaluate .slr "8 - 4 - (2 - 9) / 2" = some (.value 7) := by decide +kernel

end BottomUp.Calculator
