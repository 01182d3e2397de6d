import BottomUp.Calculator.Arithmetic
import BottomUp.Parser.Tree
import BottomUp.Proofs.Spelling

/-!
# Phrases of arithmetic

Arithmetic without ambiguity has three levels.  A sum is products with `+` and `-` between
them, a product is factors with `*` and `/` between them, and a factor is a number or a sum
in parentheses.  A `Phrase` is a syntax tree of a level.  Its last operator is at the root,
so operators of one level associate to the left.

The value of a phrase is computed within a signed 64-bit word.  It is an overflow if a
number or the value of some part does not fit.  Numbers are of any size in a phrase.

A tree of the ambiguous grammar does not show what belongs together, but its frontier is that
of a phrase (`exists_phrase`): to put an operator between two sums one goes along the second
one and appends it to the first, factor by factor (`Phrase.exists_between`).
-/

namespace BottomUp.Calculator

/-! ## Operators -/

/-- A binary operator. -/
inductive Operator where
  | add
  | sub
  | mul
  | div
deriving DecidableEq, Repr

namespace Operator

/-- How it is written. -/
def symbol : Operator → String
  | add => "+"
  | sub => "-"
  | mul => "*"
  | div => "/"

/-- The level of what it makes: sums are of level 0 and products of level 1. -/
def level : Operator → Nat
  | add | sub => 0
  | mul | div => 1

/-- What it computes, were there no bounds. -/
def apply : Operator → Int → Int → Int
  | add => (· + ·)
  | sub => (· - ·)
  | mul => (· * ·)
  | div => quotient

/-- The number of its production. -/
def number : Operator → Nat
  | add => 1
  | sub => 2
  | mul => 3
  | div => 4

/-- Its lexeme. -/
def lexeme (op : Operator) : Lexeme := ⟨op.symbol, 0⟩

theorem level_cases (op : Operator) : op.level = 0 ∨ op.level = 1 := by cases op <;> decide

theorem symbol_ne_num (op : Operator) : op.symbol ≠ "num" := by cases op <;> decide

theorem symbol_ne_closing (op : Operator) : op.symbol ≠ ")" := by cases op <;> decide

theorem symbol_injective {op op' : Operator} (h : op.symbol = op'.symbol) : op = op' := by
  cases op <;> cases op' <;> first | rfl | exact absurd h (by decide)

end Operator

/-! ## Phrases -/

/-- A syntax tree of a level: level 0 is that of sums, 1 that of products and 2 that of
factors. -/
inductive Phrase : Nat → Type where
  /-- A number. -/
  | number (n : Nat) : Phrase 2
  /-- A sum in parentheses. -/
  | group (e : Phrase 0) : Phrase 2
  /-- A single operand. -/
  | lift {l : Nat} (e : Phrase (l + 1)) : Phrase l
  /-- One operand more. -/
  | join {l : Nat} (op : Operator) (level : op.level = l) (left : Phrase l)
      (right : Phrase (l + 1)) : Phrase l

namespace Phrase

variable {l : Nat}

/-- The lexemes from left to right. -/
def lexemes {l : Nat} : Phrase l → List Lexeme
  | number n => [⟨"num", n⟩]
  | group e => ⟨"(", 0⟩ :: (e.lexemes ++ [⟨")", 0⟩])
  | lift e => e.lexemes
  | join op _ left right => left.lexemes ++ op.lexeme :: right.lexemes

/-- The value. -/
def value {l : Nat} : Phrase l → Value
  | number n => checked n
  | group e => e.value
  | lift e => e.value
  | join op _ left right => do checked (op.apply (← left.value) (← right.value))

/-- If there is a value, every number in the phrase fits a word. -/
theorem fits_of_value (e : Phrase l) : ∀ {i : Int}, e.value = some i → Fits e.lexemes := by
  induction e with
  | number n =>
      intro i h
      rw [value, checked, Option.ite_none_right_eq_some] at h
      exact List.forall_mem_singleton.mpr h.1.2
  | group e ih =>
      intro i h
      have closing : Fits [⟨")", 0⟩] := List.forall_mem_singleton.mpr (by decide)
      exact List.forall_mem_cons.mpr ⟨by decide, List.forall_mem_append.mpr ⟨ih h, closing⟩⟩
  | lift e ih => exact ih
  | join op _ left right ihl ihr =>
      intro i h
      obtain ⟨a, ha, h⟩ := Option.bind_eq_some_iff.mp h
      obtain ⟨b, hb, _⟩ := Option.bind_eq_some_iff.mp h
      have operator : op.lexeme.value ≤ maxInt := by
        show 0 ≤ maxInt
        decide
      exact List.forall_mem_append.mpr ⟨ihl ha, List.forall_mem_cons.mpr ⟨operator, ihr hb⟩⟩

/-! ## Operators between phrases -/

/-- An operator and a factor can be appended to a sum. -/
theorem exists_append (e : Phrase 0) (op : Operator) (f : Phrase 2) :
    ∃ e' : Phrase 0, e'.lexemes = e.lexemes ++ op.lexeme :: f.lexemes := by
  rcases op.level_cases with h | h
  · exact ⟨.join op h e (.lift f), rfl⟩
  · -- the factor belongs to the last product of the sum
    cases e with
    | lift e => exact ⟨.lift (.join op h e f), rfl⟩
    | join op' h' left right =>
        exact ⟨.join op' h' left (.join op h right f), by simp [lexemes]⟩

/-- An operator can be put between a sum and a phrase. -/
theorem exists_between (e : Phrase l) :
    ∀ (left : Phrase 0) (op : Operator),
      ∃ e' : Phrase 0, e'.lexemes = left.lexemes ++ op.lexeme :: e.lexemes := by
  induction e with
  | number n => exact fun left op => left.exists_append op (.number n)
  | group e _ => exact fun left op => left.exists_append op (.group e)
  | lift e ih => exact ih
  | join op' _ _ _ iha ihb =>
      intro left op
      obtain ⟨front, hfront⟩ := iha left op
      obtain ⟨whole, hwhole⟩ := ihb front op'
      exact ⟨whole, by rw [hwhole, hfront, lexemes, List.append_assoc, List.cons_append]⟩

end Phrase

/-! ## Productions of the grammar -/

/-- A sentence is an expression. -/
def sentence : Production String String Value := ⟨"S", [.nonterminal "E"], none, pick 0⟩

/-- An expression may be two expressions with an operator between them. -/
def operation (op : Operator) : Production String String Value :=
  ⟨"E", [.nonterminal "E", .terminal op.symbol, .nonterminal "E"], none, binary op.apply⟩

/-- An expression may be in parentheses. -/
def bracketed : Production String String Value :=
  ⟨"E", [.terminal "(", .nonterminal "E", .terminal ")"], none, pick 1⟩

/-- An expression may be a number. -/
def literal : Production String String Value := ⟨"E", [.terminal "num"], none, pick 0⟩

theorem getElem?_sentence : grammar.productions[0]? = some sentence := rfl

theorem getElem?_operation (op : Operator) :
    grammar.productions[op.number]? = some (operation op) := by
  cases op <;> rfl

theorem getElem?_bracketed : grammar.productions[5]? = some bracketed := rfl

theorem getElem?_literal : grammar.productions[6]? = some literal := rfl

variable {p : Nat} {production : Production String String Value}

theorem getElem?_cases (h : grammar.productions[p]? = some production) :
    (p = 0 ∧ production = sentence) ∨ (∃ op : Operator, p = op.number ∧ production = operation op) ∨
      (p = 5 ∧ production = bracketed) ∨ p = 6 ∧ production = literal := by
  match p with
  | 0 => exact .inl ⟨rfl, (Option.some.inj h).symm⟩
  | 1 => exact .inr (.inl ⟨.add, rfl, (Option.some.inj h).symm⟩)
  | 2 => exact .inr (.inl ⟨.sub, rfl, (Option.some.inj h).symm⟩)
  | 3 => exact .inr (.inl ⟨.mul, rfl, (Option.some.inj h).symm⟩)
  | 4 => exact .inr (.inl ⟨.div, rfl, (Option.some.inj h).symm⟩)
  | 5 => exact .inr (.inr (.inl ⟨rfl, (Option.some.inj h).symm⟩))
  | 6 => exact .inr (.inr (.inr ⟨rfl, (Option.some.inj h).symm⟩))
  | p + 7 => cases h

/-! ## Trees of the grammar -/

section

variable {t : Tree Lexeme} {s : String}

/-- A terminal is the symbol of a lexeme. -/
theorem exists_leaf (h : t.symbol? grammar reader = some (.terminal s)) :
    ∃ k : Lexeme, t = .leaf k ∧ k.kind = s := by
  cases t with
  | leaf k =>
      cases h
      exact ⟨k, rfl, rfl⟩
  | node p children =>
      obtain ⟨production, _, hs⟩ := Option.map_eq_some_iff.mp h
      cases hs

/-- The trees of a right-hand side of three symbols. -/
theorem exists_three {a b c : Symbol String String} {ts : List (Tree Lexeme)}
    (h : ts.map (Tree.symbol? grammar reader) = [a, b, c].map some) :
    ∃ x y z, ts = [x, y, z] ∧ x.symbol? grammar reader = some a ∧
      y.symbol? grammar reader = some b ∧ z.symbol? grammar reader = some c := by
  obtain ⟨x, ts, rfl, hx, h⟩ := List.map_eq_cons_iff.mp h
  obtain ⟨y, ts, rfl, hy, h⟩ := List.map_eq_cons_iff.mp h
  obtain ⟨z, rfl, hz⟩ := List.map_eq_singleton_iff.mp h
  exact ⟨x, y, z, rfl, hx, hy, hz⟩

/-- The frontier of an expression is that of a phrase. -/
theorem exists_phrase (h : t.IsOf grammar reader)
    (hs : t.symbol? grammar reader = some (.nonterminal "E"))
    (proper : ∀ k ∈ t.frontier, k.Proper) : ∃ e : Phrase 0, e.lexemes = t.frontier := by
  induction h with
  | leaf k => cases hs
  | @node p production children hp hc _ ih =>
      rw [Tree.frontier, Tree.frontiers_eq_flatMap] at proper ⊢
      have inner (t) (ht : t ∈ children) (hs : t.symbol? grammar reader = some (.nonterminal "E")) :
          ∃ e : Phrase 0, e.lexemes = t.frontier :=
        ih t ht hs fun k hk => proper k (List.mem_flatMap.mpr ⟨t, ht, hk⟩)
      rcases getElem?_cases hp with ⟨rfl, _⟩ | ⟨op, _, rfl⟩ | ⟨_, rfl⟩ | ⟨_, rfl⟩
      · simp [Tree.symbol?, getElem?_sentence, sentence] at hs
      · obtain ⟨left, middle, right, rfl, hl, hm, hr⟩ := exists_three hc
        obtain ⟨k, rfl, hk⟩ := exists_leaf hm
        obtain ⟨e, he⟩ := inner left (by simp) hl
        obtain ⟨e', he'⟩ := inner right (by simp) hr
        obtain ⟨whole, hw⟩ := e'.exists_between e op
        have same : k = op.lexeme :=
          (proper k (by simp [Tree.frontier])).eq_symbol hk op.symbol_ne_num
        exact ⟨whole, by simp [hw, he, he', same, Tree.frontier]⟩
      · obtain ⟨first, middle, last, rfl, hf, hm, hl⟩ := exists_three hc
        obtain ⟨k, rfl, hk⟩ := exists_leaf hf
        obtain ⟨k', rfl, hk'⟩ := exists_leaf hl
        obtain ⟨e, he⟩ := inner middle (by simp) hm
        have opening := (proper k (by simp [Tree.frontier])).eq_symbol hk (by decide)
        have closing := (proper k' (by simp [Tree.frontier])).eq_symbol hk' (by decide)
        exact ⟨.lift (.lift (.group e)),
          by simp [Phrase.lexemes, he, opening, closing, Tree.frontier]⟩
      · obtain ⟨t, rfl, ht⟩ := List.map_eq_singleton_iff.mp hc
        obtain ⟨k, rfl, hk⟩ := exists_leaf ht
        obtain ⟨n, rfl⟩ := (proper k (by simp [Tree.frontier])).exists_number hk
        exact ⟨.lift (.lift (.number n)), by simp [Phrase.lexemes, Tree.frontier]⟩

/-- The frontier of a sentence is that of a phrase. -/
theorem exists_phrase_of_sentence {children : List (Tree Lexeme)}
    (h : (Tree.node 0 children).IsOf grammar reader)
    (proper : ∀ k ∈ Tree.frontiers children, k.Proper) :
    ∃ e : Phrase 0, e.lexemes = Tree.frontiers children := by
  cases h with
  | node hp hs trees =>
      cases hp
      obtain ⟨t, rfl, ht⟩ := List.map_eq_singleton_iff.mp hs
      have same : Tree.frontiers [t] = t.frontier := by
        rw [Tree.frontiers, Tree.frontiers, List.append_nil]
      rw [same] at proper ⊢
      exact exists_phrase (trees t List.mem_cons_self) ht proper

end

end BottomUp.Calculator
