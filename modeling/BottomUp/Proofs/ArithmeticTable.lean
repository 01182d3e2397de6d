import BottomUp.Proofs.Exactness
import BottomUp.Proofs.Phrases
import BottomUp.Proofs.Simulation

/-!
# The table of arithmetic

A path of the automaton of arithmetic goes over expressions with operators behind them and
over opening parentheses, to where a phrase is awaited (`Awaits`).  How far it binds is known
there: what the last operator leaves to its right operand is of a higher level than the
operator.  And so is what comes behind the phrase if no operator does: a parenthesis, or the
end of the input.

Either method has the reductions before what can come behind a phrase (`Completed.expects`).
There are no others that would be in the way, and only an operator behind an operation makes
two actions compete (`operators_of_compete`).  The declared precedences decide that as the
levels do (`action_operator`, `action_operation`).
-/

namespace BottomUp.Calculator

/-- The symbol of expressions. -/
abbrev expr : Symbol String String := .nonterminal "E"

/-! ## Paths -/

/-- A phrase of a least level is awaited, and what comes behind it if no operator does. -/
inductive Awaits : List (Symbol String String) → Nat → Lookahead String → Prop
  /-- The whole input is a sum. -/
  | start : Awaits [] 0 none
  /-- The right operand of an operator is of a higher level. -/
  | operand {π : List (Symbol String String)} {least : Nat} {closer : Lookahead String}
      (op : Operator) :
      Awaits π least closer → Awaits (π ++ [expr, .terminal op.symbol]) (op.level + 1) closer
  /-- In parentheses there is a sum. -/
  | opened {π : List (Symbol String String)} {least : Nat} {closer : Lookahead String} :
      Awaits π least closer → Awaits (π ++ [.terminal "("]) 0 (some ")")

/-- A phrase can end before the lookahead. -/
def Ends (closer a : Lookahead String) : Prop := a = closer ∨ ∃ op : Operator, a = some op.symbol

/-- A phrase of a level ends before the lookahead: an operator of a higher level would go on
with it. -/
def EndsAt (l : Nat) (closer a : Lookahead String) : Prop :=
  a = closer ∨ ∃ op : Operator, a = some op.symbol ∧ op.level ≤ l

/-- A terminal can go on behind a path. -/
inductive Continues : List (Symbol String String) → String → Prop
  | literal {π : List (Symbol String String)} {least : Nat} {closer : Lookahead String} :
      Awaits π least closer → Continues π "num"
  | opening {π : List (Symbol String String)} {least : Nat} {closer : Lookahead String} :
      Awaits π least closer → Continues π "("
  | operator {π : List (Symbol String String)} {least : Nat} {closer : Lookahead String}
      (op : Operator) : Awaits π least closer → Continues (π ++ [expr]) op.symbol
  | closing {π : List (Symbol String String)} {least : Nat} {closer : Lookahead String} :
      Awaits π least closer → Continues (π ++ [.terminal "(", expr]) ")"

/-- A production other than the first has been read. -/
inductive Completed : List (Symbol String String) → Lookahead String → Nat → Prop
  | operation {π : List (Symbol String String)} {least : Nat} {closer : Lookahead String}
      (op : Operator) : Awaits π least closer →
      Completed (π ++ [expr, .terminal op.symbol, expr]) closer op.number
  | bracketed {π : List (Symbol String String)} {least : Nat} {closer : Lookahead String} :
      Awaits π least closer → Completed (π ++ [.terminal "(", expr, .terminal ")"]) closer 5
  | literal {π : List (Symbol String String)} {least : Nat} {closer : Lookahead String} :
      Awaits π least closer → Completed (π ++ [.terminal "num"]) closer 6

variable {π γ right : List (Symbol String String)} {least l p d i j : Nat}
  {closer closer' a : Lookahead String} {t : String} {n : String}

theorem EndsAt.ends (h : EndsAt l closer a) : Ends closer a :=
  h.imp_right fun ⟨op, ha, _⟩ => ⟨op, ha⟩

theorem EndsAt.mono {l' : Nat} (h : EndsAt l closer a) (hl : l ≤ l') : EndsAt l' closer a :=
  h.imp_right fun ⟨op, ha, ho⟩ => ⟨op, ha, ho.trans hl⟩

theorem Awaits.getLast?_cases (h : Awaits π least closer) :
    π = [] ∨ (∃ op : Operator, π.getLast? = some (.terminal op.symbol)) ∨
      π.getLast? = some (.terminal "(") := by
  cases h with
  | start => exact .inl rfl
  | operand op _ => exact .inr (.inl ⟨op, by simp⟩)
  | opened _ => exact .inr (.inr (by simp))

theorem Awaits.closer_cases (h : Awaits π least closer) : closer = none ∨ closer = some ")" := by
  induction h with
  | start => exact .inl rfl
  | operand _ _ ih => exact ih
  | opened _ _ => exact .inr rfl

/-- What is left of a nonterminal is a path to where a phrase is awaited. -/
theorem awaits_of_chain {left : List (Symbol String String)}
    (h : grammar.Chain "S" left n right) :
    (∃ least closer, Awaits left least closer) ∧ (n = "S" → left = []) := by
  induction h with
  | start => exact ⟨⟨0, none, .start⟩, fun _ => rfl⟩
  | @down left right before after production n _ hp hr ih =>
      obtain ⟨⟨least, closer, hw⟩, hleft⟩ := ih
      obtain ⟨p, hp⟩ := List.getElem?_of_mem hp
      rcases getElem?_cases hp with ⟨_, rfl⟩ | ⟨op, _, rfl⟩ | ⟨_, rfl⟩ | ⟨_, rfl⟩
      · obtain rfl : left = [] := hleft rfl
        rcases before with _ | ⟨_, before⟩
        · exact ⟨⟨_, _, hw⟩, fun _ => rfl⟩
        · simp [sentence] at hr
      · rcases before with _ | ⟨_, _ | ⟨_, _ | ⟨_, before⟩⟩⟩
        · obtain ⟨rfl, _⟩ : "E" = n ∧ _ := by simpa [operation] using hr
          rw [List.append_nil]
          exact ⟨⟨_, _, hw⟩, fun he => absurd he (by decide)⟩
        · simp [operation] at hr
        · simp only [operation, List.cons_append, List.nil_append, List.cons.injEq,
            Symbol.nonterminal.injEq] at hr
          obtain ⟨rfl, rfl, rfl, _⟩ := hr
          exact ⟨⟨_, _, hw.operand op⟩, fun he => absurd he (by decide)⟩
        · simp [operation] at hr
      · rcases before with _ | ⟨_, _ | ⟨_, _ | ⟨_, before⟩⟩⟩
        · simp [bracketed] at hr
        · simp only [bracketed, List.cons_append, List.nil_append, List.cons.injEq,
            Symbol.nonterminal.injEq] at hr
          obtain ⟨rfl, rfl, _⟩ := hr
          exact ⟨⟨_, _, hw.opened⟩, fun he => absurd he (by decide)⟩
        · simp [bracketed] at hr
        · simp [bracketed] at hr
      · rcases before with _ | ⟨_, before⟩
        · simp [literal] at hr
        · simp [literal] at hr

/-- A chain leads to where a phrase is awaited, and its closer begins what it leaves to the
right. -/
theorem Awaits.exists_chain_closer (h : Awaits π least closer) :
    ∃ right, ∃ w : List String, grammar.Chain "S" π "E" right ∧
      grammar.Derives right (w.map .terminal) ∧ w.head? = closer := by
  induction h with
  | start =>
      have split : sentence.rhs = [] ++ expr :: [] := rfl
      exact ⟨[], [], .down .start (List.mem_of_getElem? getElem?_sentence) split, .refl, rfl⟩
  | operand op _ ih =>
      obtain ⟨right, w, hc, hd, hw⟩ := ih
      have split : (operation op).rhs = [expr, .terminal op.symbol] ++ expr :: [] := rfl
      exact ⟨right, w, .down hc (List.mem_of_getElem? (getElem?_operation op)) split, hd, hw⟩
  | opened _ ih =>
      obtain ⟨right, w, hc, hd, _⟩ := ih
      have split : bracketed.rhs = [.terminal "("] ++ expr :: [.terminal ")"] := rfl
      exact ⟨_, ")" :: w, .down hc (List.mem_of_getElem? getElem?_bracketed) split,
        by simpa using hd.between [.terminal ")"] [], rfl⟩

/-- Whatever a phrase can end before can begin what a chain leaves to the right. -/
theorem Awaits.exists_chain (h : Awaits π least closer) (ha : Ends closer a) :
    ∃ right, ∃ w : List String, grammar.Chain "S" π "E" right ∧
      grammar.Derives right (w.map .terminal) ∧ w.head? = a := by
  obtain ⟨right, w, hc, hd, hw⟩ := h.exists_chain_closer
  rcases ha with rfl | ⟨op, rfl⟩
  · exact ⟨right, w, hc, hd, hw⟩
  · have split : (operation op).rhs = [] ++ expr :: [.terminal op.symbol, expr] := rfl
    have chain := Grammar.Chain.down hc (List.mem_of_getElem? (getElem?_operation op)) split
    rw [List.append_nil] at chain
    have number : grammar.Derives [expr] [.terminal "num"] :=
      .of_production (List.mem_of_getElem? getElem?_literal)
    have rest := (number.append hd).between [.terminal op.symbol] []
    exact ⟨_, op.symbol :: "num" :: w, chain, by simpa using rest, rfl⟩

/-! ## What is read, and what goes on -/

theorem Awaits.getLast?_ne (h : Awaits π least closer) {s : Symbol String String}
    (hs : ∀ op : Operator, s ≠ .terminal op.symbol) (hs' : s ≠ .terminal "(") :
    π.getLast? ≠ some s := by
  intro he
  rcases h.getLast?_cases with rfl | ⟨op, hl⟩ | hl
  · cases he
  · exact hs op (Option.some.inj (he.symm.trans hl))
  · exact hs' (Option.some.inj (he.symm.trans hl))

theorem Completed.exists_production (h : Completed γ closer p) :
    ∃ π least production, Awaits π least closer ∧ grammar.productions[p]? = some production ∧
      production.lhs = "E" ∧ p ≠ 0 ∧ γ = π ++ production.rhs := by
  cases h with
  | operation op hπ =>
      exact ⟨_, _, _, hπ, getElem?_operation op, rfl, by cases op <;> decide, rfl⟩
  | bracketed hπ => exact ⟨_, _, _, hπ, getElem?_bracketed, rfl, by decide, rfl⟩
  | literal hπ => exact ⟨_, _, _, hπ, getElem?_literal, rfl, by decide, rfl⟩

/-- What goes on is the next terminal of a production. -/
theorem Continues.exists_production (h : Continues γ t) :
    ∃ π least closer, ∃ p : Nat, ∃ production : Production String String Value, ∃ symbols rest,
      Awaits π least closer ∧ grammar.productions[p]? = some production ∧ production.lhs = "E" ∧
        production.rhs = symbols ++ .terminal t :: rest ∧ γ = π ++ symbols := by
  cases h with
  | literal hπ =>
      exact ⟨_, _, _, _, _, [], _, hπ, getElem?_literal, rfl, rfl, (List.append_nil _).symm⟩
  | opening hπ =>
      exact ⟨_, _, _, _, _, [], _, hπ, getElem?_bracketed, rfl, rfl, (List.append_nil _).symm⟩
  | operator op hπ =>
      exact ⟨_, _, _, _, _, [expr], _, hπ, getElem?_operation op, rfl, rfl, rfl⟩
  | closing hπ =>
      exact ⟨_, _, _, _, _, [.terminal "(", expr], _, hπ, getElem?_bracketed, rfl, rfl, rfl⟩

/-- Behind a production a phrase is not awaited. -/
theorem Completed.not_awaits (h : Completed γ closer p) : ¬ Awaits γ least closer' := by
  intro hw
  cases h with
  | operation _ _ => exact hw.getLast?_ne (s := expr) nofun nofun (by simp)
  | bracketed _ =>
      exact hw.getLast?_ne (s := .terminal ")") (fun op => by cases op <;> decide) (by decide)
        (by simp)
  | literal _ =>
      exact hw.getLast?_ne (s := .terminal "num") (fun op => by cases op <;> decide) (by decide)
        (by simp)

/-- A path shows which production has been read. -/
theorem Completed.unique (h : Completed γ closer p) {q : Nat} (h' : Completed γ closer' q) :
    p = q := by
  generalize hw : γ = δ at h'
  cases h with
  | operation op _ =>
      cases h' with
      | operation op' _ =>
          have same := (List.append_inj' hw rfl).2
          simp only [List.cons.injEq, Symbol.terminal.injEq] at same
          rw [Operator.symbol_injective same.2.1]
      | bracketed _ => simpa using congrArg List.getLast? hw
      | literal _ => simpa using congrArg List.getLast? hw
  | bracketed _ =>
      cases h' with
      | operation _ _ => simpa using congrArg List.getLast? hw
      | bracketed _ => rfl
      | literal _ => simpa using congrArg List.getLast? hw
  | literal _ =>
      cases h' with
      | operation _ _ => simpa using congrArg List.getLast? hw
      | bracketed _ => simpa using congrArg List.getLast? hw
      | literal _ => rfl

/-- Only an operator goes on behind what has been read, and only behind an operation. -/
theorem Continues.operators (h : Continues γ t) (hc : Completed γ closer p) :
    ∃ op op' : Operator, t = op.symbol ∧ p = op'.number := by
  generalize hw : γ = δ at hc
  cases h with
  | literal hγ => exact absurd hγ (hw ▸ hc).not_awaits
  | opening hγ => exact absurd hγ (hw ▸ hc).not_awaits
  | operator op _ =>
      cases hc with
      | operation op' _ => exact ⟨op, op', rfl, rfl⟩
      | bracketed _ => simpa using congrArg List.getLast? hw
      | literal _ => simpa using congrArg List.getLast? hw
  | closing _ =>
      cases hc with
      | operation op' _ =>
          have same := congrArg (fun γ => γ.dropLast.getLast?) hw
          cases op' <;> simp [Operator.symbol] at same
      | bracketed _ => simpa using congrArg List.getLast? hw
      | literal _ => simpa using congrArg List.getLast? hw

/-- An expression behind an opening parenthesis is to be closed first. -/
theorem Awaits.not_completed_opened (h : Awaits π least closer) :
    ¬ Completed (π ++ [.terminal "(", expr]) closer' p := by
  intro hc
  obtain ⟨op, _, hs, _⟩ := (Continues.closing h).operators hc
  exact op.symbol_ne_closing hs.symm

theorem not_completed_expr : ¬ Completed [expr] closer p := by
  intro h
  generalize hw : [expr] = δ at h
  cases h with
  | operation _ _ => simpa using congrArg List.length hw
  | bracketed _ => simpa using congrArg List.length hw
  | literal _ => simpa using congrArg List.getLast? hw

/-! ## The automaton -/

theorem validate_grammar : grammar.validate "S" = .ok 0 := rfl

/-- The automaton of the grammar. -/
abbrev outline (method : Method) : Outline String String := grammar.outline method "S" 0

/-- What that automaton has for a cell. -/
abbrev candidates (method : Method) (i : Nat) (a : Lookahead String) : Candidates :=
  (outline method).candidates grammar {} 0 i a

theorem starts : grammar.Starts "S" 0 := Grammar.starts_of_validate validate_grammar

theorem lawful (method : Method) : (outline method).Lawful grammar 0 :=
  Grammar.lawful_outline starts method

variable {method : Method}

/-- Behind a path to where a phrase is awaited there is a path over each right-hand side, and
that is expected before whatever the phrase can end before. -/
theorem Awaits.exists_spells (h : Awaits π least closer) (method : Method) (ha : Ends closer a)
    {production : Production String String Value}
    (hp : grammar.productions[p]? = some production) (hl : production.lhs = "E")
    {symbols rest : List (Symbol String String)} (hr : production.rhs = symbols ++ rest) :
    ∃ i, (outline method).Spells (π ++ symbols) i ∧
      (outline method).expects i p symbols.length a := by
  obtain ⟨right, w, hc, hw, rfl⟩ := h.exists_chain ha
  exact (lawful method).exists_spells_production starts hc hw hp hl hr

/-- An item belongs to the first production at the beginning of a path, or to another one
behind a path to where a phrase is awaited. -/
theorem holds_cases (hγ : (outline method).Spells γ i) (h : (outline method).holds i p d) :
    (p = 0 ∧ γ = sentence.rhs.take d) ∨ ∃ π least closer, Awaits π least closer ∧
      ((∃ op : Operator, p = op.number ∧ γ = π ++ (operation op).rhs.take d) ∨
        (p = 5 ∧ γ = π ++ bracketed.rhs.take d) ∨ p = 6 ∧ γ = π ++ literal.rhs.take d) := by
  obtain ⟨right, production, left, hp, _, hc, rfl⟩ := Grammar.exists_valid starts hγ h
  obtain ⟨⟨least, closer, hw⟩, hleft⟩ := awaits_of_chain hc
  rcases getElem?_cases hp with ⟨rfl, rfl⟩ | ⟨op, rfl, rfl⟩ | ⟨rfl, rfl⟩ | ⟨rfl, rfl⟩
  · exact .inl ⟨rfl, by rw [hleft rfl, List.nil_append]⟩
  · exact .inr ⟨left, least, closer, hw, .inl ⟨op, rfl, rfl⟩⟩
  · exact .inr ⟨left, least, closer, hw, .inr (.inl ⟨rfl, rfl⟩)⟩
  · exact .inr ⟨left, least, closer, hw, .inr (.inr ⟨rfl, rfl⟩)⟩

/-- There is a transition only on what goes on behind the path. -/
theorem continues_of_next (hγ : (outline method).Spells γ i)
    (hn : (outline method).next? i (.terminal t) = some j) : Continues γ t := by
  obtain ⟨p, d, hi, hs⟩ := (lawful method).exists_holds_of_next hn
  rcases holds_cases hγ hi with ⟨rfl, _⟩ | ⟨π, least, closer, hπ, h⟩
  · rw [Grammar.rhs_of_getElem? getElem?_sentence] at hs
    rcases d with _ | d <;> cases hs
  · rcases h with ⟨op, rfl, rfl⟩ | ⟨rfl, rfl⟩ | ⟨rfl, rfl⟩
    · rw [Grammar.rhs_of_getElem? (getElem?_operation op)] at hs
      rcases d with _ | _ | _ | d <;> cases hs
      exact .operator op hπ
    · rw [Grammar.rhs_of_getElem? getElem?_bracketed] at hs
      rcases d with _ | _ | _ | d <;> cases hs
      · rw [List.take_zero, List.append_nil]
        exact .opening hπ
      · exact .closing hπ
    · rw [Grammar.rhs_of_getElem? getElem?_literal] at hs
      rcases d with _ | d <;> cases hs
      rw [List.take_zero, List.append_nil]
      exact .literal hπ

/-- There is a transition on whatever goes on behind the path. -/
theorem Continues.exists_next (h : Continues γ t) (hγ : (outline method).Spells γ i) :
    ∃ j, (outline method).next? i (.terminal t) = some j := by
  obtain ⟨π, least, closer, p, production, symbols, rest, hπ, hp, hl, hr, rfl⟩ :=
    h.exists_production
  have split : production.rhs = (symbols ++ [.terminal t]) ++ rest := by simp [hr]
  obtain ⟨j, hj, _⟩ := hπ.exists_spells method (.inl rfl) hp hl split
  rw [← List.append_assoc] at hj
  exact ⟨j, hγ.next_eq hj⟩

/-- What is read to the end is the first production or another one. -/
theorem completed_of_holds (hγ : (outline method).Spells γ i)
    (h : (outline method).holds i p (grammar.rhs p).length) :
    (p = 0 ∧ γ = [expr]) ∨ ∃ closer, Completed γ closer p := by
  rcases holds_cases hγ h with ⟨rfl, rfl⟩ | ⟨π, least, closer, hπ, h⟩
  · rw [Grammar.rhs_of_getElem? getElem?_sentence, List.take_length]
    exact .inl ⟨rfl, rfl⟩
  · refine .inr ⟨closer, ?_⟩
    rcases h with ⟨op, rfl, rfl⟩ | ⟨rfl, rfl⟩ | ⟨rfl, rfl⟩
    · rw [Grammar.rhs_of_getElem? (getElem?_operation op), List.take_length]
      exact .operation op hπ
    · rw [Grammar.rhs_of_getElem? getElem?_bracketed, List.take_length]
      exact .bracketed hπ
    · rw [Grammar.rhs_of_getElem? getElem?_literal, List.take_length]
      exact .literal hπ

theorem Completed.expects (h : Completed γ closer p) (hγ : (outline method).Spells γ i)
    (ha : Ends closer a) : (outline method).expects i p (grammar.rhs p).length a := by
  obtain ⟨π, least, production, hπ, hp, hl, _, rfl⟩ := h.exists_production
  obtain ⟨j, hj, he⟩ := hπ.exists_spells method ha hp hl (List.append_nil _).symm
  rw [Grammar.rhs_of_getElem? hp, hγ.unique hj]
  exact he

/-! ## Candidates -/

section

variable (hγ : (outline method).Spells γ i)

include hγ

/-- Nothing is reduced where nothing is read to the end. -/
theorem reduces_eq_empty (h : ∀ closer p, ¬ Completed γ closer p) :
    (candidates method i a).reduces = ∅ := by
  refine Set.eq_empty_iff_forall_notMem.mpr fun p ⟨hne, he, _⟩ => ?_
  rcases completed_of_holds hγ ((lawful method).holds_of_expects he) with ⟨rfl, _⟩ | ⟨closer, hc⟩
  · exact hne rfl
  · exact h closer p hc

/-- What is read to the end is reduced before whatever can come behind it. -/
theorem reduces_eq_singleton (h : Completed γ closer p) (ha : Ends closer a) :
    (candidates method i a).reduces = {p} := by
  obtain ⟨_, _, _, _, _, _, hne, _⟩ := h.exists_production
  refine Set.eq_singleton_iff_unique_mem.mpr ⟨⟨hne, h.expects hγ ha, rfl⟩, ?_⟩
  intro q ⟨hne, he, _⟩
  rcases completed_of_holds hγ ((lawful method).holds_of_expects he) with ⟨rfl, _⟩ | ⟨_, hc⟩
  · exact absurd rfl hne
  · exact hc.unique h

/-- The input is accepted at its end, when all of it is an expression. -/
theorem accept_iff : (candidates method i a).accept ↔ a = none ∧ γ = [expr] := by
  constructor
  · intro ⟨ha, he⟩
    refine ⟨ha, ?_⟩
    rcases completed_of_holds hγ ((lawful method).holds_of_expects he) with ⟨_, h⟩ | ⟨_, hc⟩
    · exact h
    · obtain ⟨_, _, _, _, _, _, hne, _⟩ := hc.exists_production
      exact absurd rfl hne
  · rintro ⟨rfl, rfl⟩
    exact ⟨rfl, (lawful method).expects_whole hγ⟩

/-- Where a shift competes with a reduction, both are of operators. -/
theorem operators_of_compete {t : String} {p : Nat}
    (h : (candidates method i a).Competes a t j p) :
    ∃ op op' : Operator, t = op.symbol ∧ p = op'.number := by
  obtain ⟨rfl, hs, ⟨hne, he, _⟩, _⟩ := h
  rcases completed_of_holds hγ ((lawful method).holds_of_expects he) with ⟨rfl, _⟩ | ⟨_, hc⟩
  · exact absurd rfl hne
  · exact (continues_of_next hγ hs).operators hc

end

/-- Behind an operation the next operator competes with its reduction. -/
theorem exists_competes (hπ : Awaits π least closer) (op op' : Operator)
    (hi : (outline method).Spells (π ++ [expr, .terminal op.symbol, expr]) i) :
    ∃ j, (i, some op'.symbol) ∈ (outline method).scan grammar ∧
      ¬ (candidates method i (some op'.symbol)).accept ∧
      (candidates method i (some op'.symbol)).Competes (some op'.symbol) op'.symbol j
        op.number := by
  have path := Continues.operator op' (hπ.operand op)
  rw [List.append_assoc] at path
  obtain ⟨j, hn⟩ := path.exists_next hi
  have shift : .shift j ∈ (candidates method i (some op'.symbol)).actions String :=
    Candidates.shift_mem_actions.mpr hn
  refine ⟨j, (lawful method).mem_scan_of_mem_actions shift, Outline.not_accept_some, rfl, hn, ?_⟩
  rw [reduces_eq_singleton hi (.operation op hπ) (.inr ⟨op', rfl⟩)]
  exact isLeast_singleton

/-- An operator and the production of an operator have the levels of the operators for
precedences. -/
theorem ranked (op op' : Operator) :
    grammar.Ranked op.symbol op'.number ⟨op.level, .left⟩ ⟨op'.level, .left⟩ where
  terminal := by cases op <;> rfl
  production := by cases op' <;> rfl

/-- No cell is a fault or recorded as a conflict. -/
theorem settled (method : Method) : (outline method).Settled grammar {} 0 := by
  intro (i, a) hm r h
  obtain ⟨γ, hγ⟩ := Grammar.exists_spells_outline (Outline.mem_scan.mp hm).1
  have unranked {t : String} {j p : Nat} {fault : GrammarError String String}
      (hc : (candidates method i a).Competes a t j p) (hu : grammar.Unranked t p fault) :
      False := by
    obtain ⟨op, op', rfl, rfl⟩ := operators_of_compete hγ hc
    obtain ⟨ofTerminal, ofProduction⟩ := ranked op op'
    cases hu with
    | terminal h => cases h.symm.trans ofTerminal
    | production _ h => cases h.symm.trans ofProduction
  cases h with
  | contested ha hp =>
      obtain ⟨rfl, rfl⟩ := (accept_iff hγ).mp ha
      rw [reduces_eq_empty hγ fun _ _ => not_completed_expr] at hp
      exact absurd hp.1 (Set.notMem_empty _)
  | defaulted _ hc hu _ => exact (unranked hc hu).elim
  | unranked _ hc hu _ => exact (unranked hc hu).elim
  | accept | unexpected | shift | reduce | tighter | looser | left | right | nonAssoc =>
      exact ⟨_, rfl⟩

/-! ## What the table does -/

section

variable {verdict : Nat → Lookahead String → Verdict String} {table : ParseTable String String}
  (hr : (outline method).Resolved grammar {} 0 verdict table)

include hr

/-- What is not read to the end is gone on with. -/
theorem action_shift (hi : (outline method).Spells γ i) (hγ : ∀ closer p, ¬ Completed γ closer p)
    (hc : Continues γ t) : ∃ j, table.action? i (some t) = some (.shift j) := by
  obtain ⟨j, hn⟩ := hc.exists_next hi
  exact ⟨j, hr.action_shift (lawful method) hn (reduces_eq_empty hi hγ)⟩

/-- A number is shifted where a phrase is awaited. -/
theorem action_literal (hπ : Awaits π least closer) (hi : (outline method).Spells π i) :
    ∃ j, table.action? i (some "num") = some (.shift j) :=
  action_shift hr hi (fun _ _ hc => hc.not_awaits hπ) (.literal hπ)

/-- An opening parenthesis is shifted where a phrase is awaited. -/
theorem action_opening (hπ : Awaits π least closer) (hi : (outline method).Spells π i) :
    ∃ j, table.action? i (some "(") = some (.shift j) :=
  action_shift hr hi (fun _ _ hc => hc.not_awaits hπ) (.opening hπ)

/-- A closing parenthesis is shifted behind an opening one and an expression. -/
theorem action_closing (hπ : Awaits π least closer)
    (hi : (outline method).Spells (π ++ [.terminal "(", expr]) i) :
    ∃ j, table.action? i (some ")") = some (.shift j) :=
  action_shift hr hi (fun _ _ => hπ.not_completed_opened) (.closing hπ)

/-- An expression that makes up all of the input is accepted. -/
theorem action_accept (hi : (outline method).Spells [expr] i) :
    table.action? i none = some .accept :=
  hr.action_accept (lawful method) ((accept_iff hi).mpr ⟨rfl, rfl⟩)
    (reduces_eq_empty hi fun _ _ => not_completed_expr)

/-- What is read to the end is reduced, if nothing is shifted. -/
theorem action_completed (hc : Completed γ closer p) (hi : (outline method).Spells γ i)
    (ha : Ends closer a) (hs : ∀ t, a = some t → ¬ Continues γ t) :
    table.action? i a = some (.reduce p) := by
  have shift : (candidates method i a).shift? = none := by
    refine Option.eq_none_iff_forall_ne_some.mpr fun j hj => ?_
    obtain ⟨t, rfl, hn⟩ := Option.bind_eq_some_iff.mp hj
    exact hs t rfl (continues_of_next hi hn)
  have accept : ¬ (candidates method i a).accept := by
    intro h
    obtain ⟨_, rfl⟩ := (accept_iff hi).mp h
    exact not_completed_expr hc
  exact hr.action_reduce (lawful method) accept shift (reduces_eq_singleton hi hc ha)

/-- A number that has been shifted becomes an expression. -/
theorem action_literal_read (hπ : Awaits π least closer)
    (hi : (outline method).Spells (π ++ [.terminal "num"]) i) (ha : Ends closer a) :
    table.action? i a = some (.reduce 6) := by
  refine action_completed hr (.literal hπ) hi ha fun t _ hc => ?_
  obtain ⟨_, op, _, h⟩ := hc.operators (.literal hπ)
  cases op <;> cases h

/-- A closed pair of parentheses becomes an expression. -/
theorem action_bracketed_read (hπ : Awaits π least closer)
    (hi : (outline method).Spells (π ++ [.terminal "(", expr, .terminal ")"]) i)
    (ha : Ends closer a) : table.action? i a = some (.reduce 5) := by
  refine action_completed hr (.bracketed hπ) hi ha fun t _ hc => ?_
  obtain ⟨_, op, _, h⟩ := hc.operators (.bracketed hπ)
  cases op <;> cases h

/-- An operator is shifted if what it makes is of the level that is awaited. -/
theorem action_operator (hπ : Awaits π least closer) {op : Operator} (hl : least ≤ op.level)
    (hi : (outline method).Spells (π ++ [expr]) i) :
    ∃ j, table.action? i (some op.symbol) = some (.shift j) := by
  cases hπ with
  | start => exact action_shift hr hi (fun _ _ => not_completed_expr) (.operator op .start)
  | opened hπ =>
      have path := Continues.operator op hπ.opened
      rw [List.append_assoc] at hi path
      exact action_shift hr hi (fun _ _ => hπ.not_completed_opened) path
  | operand op' hπ =>
      rw [List.append_assoc] at hi
      obtain ⟨j, hm, accept, competes⟩ := exists_competes hπ op' op hi
      exact ⟨j, hr.action_of_settles (lawful method) hm
        (.tighter accept competes (ranked op op') hl)⟩

/-- An operation is reduced where a phrase of its level ends. -/
theorem action_operation (hπ : Awaits π least closer) (op : Operator)
    (hi : (outline method).Spells (π ++ [expr, .terminal op.symbol, expr]) i)
    (ha : EndsAt op.level closer a) : table.action? i a = some (.reduce op.number) := by
  rcases ha with rfl | ⟨op', rfl, hl⟩
  · refine action_completed hr (.operation op hπ) hi (.inl rfl) fun t ht hc => ?_
    obtain ⟨op', _, rfl, _⟩ := hc.operators (.operation op hπ)
    rcases hπ.closer_cases with h | h
    · cases ht.symm.trans h
    · exact op'.symbol_ne_closing (Option.some.inj (ht.symm.trans h))
  · obtain ⟨j, hm, accept, competes⟩ := exists_competes hπ op op' hi
    have settles : (candidates method i (some op'.symbol)).Settles grammar {} i (some op'.symbol)
        (.ok (.action (.reduce op.number))) := by
      rcases Nat.lt_or_eq_of_le hl with hl | hl
      · exact .looser accept competes (ranked op' op) hl
      · exact .left accept competes (ranked op' op) hl rfl
    exact hr.action_of_settles (lawful method) hm settles

end

end BottomUp.Calculator
