import BottomUp.Calculator.Lexeme
import BottomUp.Grammar.Basic
import BottomUp.Parser.Basic
import BottomUp.Table.Compile

/-!
# Arithmetic

The grammar of arithmetic expressions is ambiguous, and precedence declarations settle it:
`*` and `/` bind tighter than `+` and `-`, and all four associate to the left.

Values are integers within a signed 64-bit word.  A result that leaves the word is an
*overflow*.  It is written `none` and spreads to everything computed from it, so a
computation has overflowed if and only if an overflow is among the values it leaves.
Division drops the fraction, and a division by zero gives zero.
-/

namespace BottomUp.Calculator

/-- A value, or `none` for an overflow. -/
abbrev Value : Type := Option Int

/-- An integer as a value. -/
def checked (i : Int) : Value := if minInt ≤ i ∧ i ≤ maxInt then some i else none

/-- Division without the fraction, and zero for a division by zero. -/
def quotient (a b : Int) : Int := if b = 0 then 0 else a.tdiv b

/-- The value at a place of a right-hand side. -/
def pick (i : Nat) (values : List Value) : Value := values[i]?.join

/-- The action of a binary operator, which stands between its operands. -/
def binary (op : Int → Int → Int) (values : List Value) : Value := do
  checked (op (← pick 0 values) (← pick 2 values))

/-- The clauses of the grammar: the start symbol `S` is an expression `E`. -/
def clauses : List (Grammar.Clause String String Value) :=
  let e : Symbol String String := .nonterminal "E"
  let operator (name : String) (op : Int → Int → Int) :=
    ([e, .terminal name, e], (none : Option String), binary op)
  [.rule "S" [([e], none, pick 0)],
    .rule "E"
      [operator "+" (· + ·), operator "-" (· - ·), operator "*" (· * ·), operator "/" quotient,
        ([.terminal "(", e, .terminal ")"], none, pick 1),
        ([.terminal "num"], none, pick 0)],
    .declare .left ["+", "-"],
    .declare .left ["*", "/"]]

/-- The grammar of arithmetic. -/
def grammar : Grammar String String Value := .ofClauses clauses

/-- How lexemes are read. -/
def reader : Reader Lexeme String Value := ⟨Lexeme.kind, fun lexeme => some lexeme.value⟩

/-- The table of arithmetic. -/
def table? (method : Method) : Option (ParseTable String String) :=
  (grammar.compile method "S" {}).table.toOption

/-- What comes of evaluating an expression. -/
inductive Result where
  /-- A value. -/
  | value (i : Int)
  /-- A character that belongs to no lexeme. -/
  | badCharacter (c : Char) (offset : Nat)
  /-- Not an expression.  The lookaheads that would have been right are listed. -/
  | badExpression (fault : SyntaxFault) (expected : List (Lookahead String))
  /-- A number or an intermediate result does not fit a word. -/
  | overflow
deriving DecidableEq

/-- Is there an overflow among the values on a stack? -/
def overflowed (stack : List (Entry Value)) : Bool := stack.any fun entry => entry.value? == some none

/-- The result of a parse.  An overflow comes before whatever ended the parse. -/
def resultOf (ending : Ending Lexeme String Value LexError) (stack : List (Entry Value)) : Result :=
  if overflowed stack then .overflow
  else
    match ending with
    | .accepted (some i) => .value i
    | .accepted none => .overflow
    | .lexical (.unexpected c offset) => .badCharacter c offset
    | .lexical .overflow => .overflow
    | .rejected e => .badExpression e.fault e.expected
    | .overflow => .overflow

/-- Evaluate an expression with a table.  Each lexeme is shifted once and completes at most
one production, and a last step ends the parse. -/
def evaluateWith (table : ParseTable String String) (text : String) : Option Result :=
  let lexemes := lex text
  let parser : Parser Lexeme String String Value := ⟨grammar, table, reader⟩
  (parser.parse (2 * lexemes.length + 2) lexemes).map fun (ending, c) => resultOf ending c.stack

/-- Evaluate an expression with the table of a method. -/
def evaluate (method : Method) (text : String) : Option Result :=
  (table? method).bind fun table => evaluateWith table text

end BottomUp.Calculator
