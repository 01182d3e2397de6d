import BottomUp.Grammar.Basic
import BottomUp.Table.Basic

/-!
# The parser

A parser runs a table on a stream of tokens.  Its stack holds states, each but the bottom
one with the value of the symbol that led to it.  A shift puts the value of the token on
the stack and takes the next token from the stream.  A reduction takes the values of a
right-hand side off the stack, lets the action of the production make one value of them
and puts it back with the state that the table's goto gives.  The parser looks one token
ahead and takes no token before it has shifted the one before.

A table need not belong to the grammar.  Whatever numbers it holds, a step either leads to
another configuration or ends the parse: with a value, with the error of the stream, or
with a syntax error that describes the stack it was met with.  Lengths of productions are
words, so that one more than a length may not be a word.  Accepting by a production of the
greatest length ends in `Ending.overflow`.

A table can make a parser run forever, by reductions that take nothing off the stack or by
shifts at the end of the input.  So `run` is given a number of steps and says if they were
not enough.
-/

namespace BottomUp

/-- A state on the stack with the value of the symbol that led to it. -/
structure Entry (V : Type) where
  /-- The state. -/
  state : Nat
  /-- The value.  The bottom entry has none, and neither has a shift without a token. -/
  value? : Option V
deriving DecidableEq, Repr

/-- What a parser has done. -/
structure Stats where
  /-- Tokens taken from the stream. -/
  tokens : Nat := 0
  /-- Shifts. -/
  shifts : Nat := 0
  /-- Reductions.  The one by which the input is accepted does not count. -/
  reductions : Nat := 0
deriving DecidableEq, Repr

/-- How tokens are read. -/
structure Reader (K T V : Type) where
  /-- The terminal that a token stands for. -/
  terminal : K → T
  /-- The value of a token. -/
  value : K → V

/-- Why a parser stops at a token. -/
inductive SyntaxFault where
  /-- The cell of the table is an error and brings its own message. -/
  | reported (message : String)
  /-- The table has no action. -/
  | noAction
  /-- The table or the grammar lacks the production to be reduced. -/
  | unknownProduction
  /-- The stack is lower than the right-hand side to be reduced. -/
  | stackUnderflow
  /-- The table has no state to enter after a reduction. -/
  | missingGoto
  /-- The input is accepted with something else on the stack than the right-hand side of
  the start production. -/
  | malformedStack
deriving DecidableEq, Repr

/-- A syntax error with the situation it was met in. -/
structure SyntaxError (K T V : Type) where
  /-- The cause. -/
  fault : SyntaxFault
  /-- The state it is met in. -/
  state : Nat
  /-- The token ahead, or `none` at the end of the input. -/
  token : Option K
  /-- The lookaheads that would not have been an error. -/
  expected : List (Lookahead T)
  /-- The stack, its top first. -/
  stack : List (Entry V)

/-- How a parse ends. -/
inductive Ending (K T V E : Type) where
  /-- The input is a sentence with this value. -/
  | accepted (value : V)
  /-- The stream of tokens broke off with an error. -/
  | lexical (e : E)
  /-- The input is not a sentence. -/
  | rejected (e : SyntaxError K T V)
  /-- A length does not fit a word. -/
  | overflow

/-- The situation of a parser between two steps. -/
structure Configuration (K V E : Type) where
  /-- The stack, its top first. -/
  stack : List (Entry V)
  /-- The token ahead, or `none` at the end of the input. -/
  token : Option K
  /-- The rest of the stream.  An error may stand in it for a token. -/
  input : List (Except E K)
  /-- What was done so far. -/
  stats : Stats
  /-- How often the stream was asked for a token. -/
  pulls : Nat

/-- What a step leads to. -/
inductive Progress (K T V E : Type) where
  /-- Another configuration. -/
  | continues (c : Configuration K V E)
  /-- The end of the parse, and the configuration that is left. -/
  | ends (how : Ending K T V E) (c : Configuration K V E)

/-- One more than the greatest length of a production. -/
def wordLimit : Nat := UInt64.size

namespace SyntaxFault

/-- The report of a fault. -/
def message : SyntaxFault → String
  | reported message => message
  | noAction => "unexpected token"
  | unknownProduction => "unknown production"
  | stackUnderflow => "parse stack underflow"
  | missingGoto => "missing goto"
  | malformedStack => "accepted with a malformed stack"

end SyntaxFault

namespace SyntaxError

/-- A syntax error in words. -/
def message {K T V : Type} [Quoted K] (e : SyntaxError K T V) : String :=
  e.fault.message ++ " in state " ++ toString e.state ++ " at " ++ quote e.token

end SyntaxError

namespace Ending

/-- The report of a parse that came to an error, given the words for an error of the stream. -/
def report? {K T V E : Type} [Quoted K] (words : E → String) : Ending K T V E → Option String
  | lexical e => some ("lexical error: " ++ words e)
  | rejected e => some ("syntax error: " ++ e.message)
  | accepted _ => none
  | overflow => none

end Ending

/-- A grammar, a table and a way to read tokens.  The grammar lends its actions to the
table. -/
structure Parser (K T N V : Type) [Ordered T] [Ordered N] where
  /-- The grammar. -/
  grammar : Grammar T N V
  /-- The table. -/
  table : ParseTable T N
  /-- How tokens are read. -/
  reader : Reader K T V

namespace Parser

variable {K T N V E : Type} [Ordered T] [Ordered N]

/-- The state on top of a stack, and the start of the table if there is none. -/
def top (m : Parser K T N V) (stack : List (Entry V)) : Nat :=
  match stack with
  | entry :: _ => entry.state
  | [] => m.table.start

/-- Ask the stream for a token.  The end of the stream stays the end. -/
def pull (c : Configuration K V E) : Progress K T V E :=
  let c := { c with pulls := c.pulls + 1 }
  match c.input with
  | [] => .continues { c with token := none }
  | .ok k :: rest =>
      .continues { c with
        token := some k, input := rest, stats := { c.stats with tokens := c.stats.tokens + 1 } }
  | .error e :: rest => .ends (.lexical e) { c with token := none, input := rest }

/-- End with a syntax error in a state. -/
def reject (m : Parser K T N V) (fault : SyntaxFault) (state : Nat) (c : Configuration K V E) :
    Progress K T V E :=
  .ends (.rejected ⟨fault, state, c.token, m.table.expected state, c.stack⟩) c

/-- Put the token on the stack under a new state and ask for the next one. -/
def shift (m : Parser K T N V) (state : Nat) (c : Configuration K V E) : Progress K T V E :=
  pull { c with
    stack := ⟨state, c.token.map m.reader.value⟩ :: c.stack
    stats := { c.stats with shifts := c.stats.shifts + 1 } }

/-- The values of some entries of a stack, the lowest first. -/
def values (entries : List (Entry V)) : List V := (entries.filterMap Entry.value?).reverse

/-- Replace the right-hand side of a production on the stack by its left-hand side. -/
def reduce (m : Parser K T N V) (p : Nat) (c : Configuration K V E) : Progress K T V E :=
  match m.table.productions[p]? with
  | none => m.reject .unknownProduction (m.top c.stack) c
  | some info =>
      if c.stack.length ≤ info.len then m.reject .stackUnderflow (m.top c.stack) c
      else
        let below := { c with stack := c.stack.drop info.len }
        match m.grammar.productions[p]? with
        | none => m.reject .unknownProduction (m.top c.stack) below
        | some production =>
            let uncovered := m.top below.stack
            match m.table.goto? uncovered info.lhs with
            | none => m.reject .missingGoto uncovered below
            | some next =>
                let value := production.act (values (c.stack.take info.len))
                .continues { below with
                  stack := ⟨next, some value⟩ :: below.stack
                  stats := { c.stats with reductions := c.stats.reductions + 1 } }

/-- End with the value of the start production, if just its right-hand side is on the
stack. -/
def accept (m : Parser K T N V) (c : Configuration K V E) : Progress K T V E :=
  let p := m.table.startProduction
  match m.table.productions[p]?, m.grammar.productions[p]? with
  | some info, some production =>
      if c.stack.length = info.len + 1 then
        .ends (.accepted (production.act (values (c.stack.take info.len))))
          { c with stack := c.stack.drop info.len }
      else if info.len + 1 = wordLimit then .ends .overflow c
      else m.reject .malformedStack (m.top c.stack) c
  | _, _ => m.reject .unknownProduction (m.top c.stack) c

/-- The action that the table has for a configuration. -/
def action? (m : Parser K T N V) (c : Configuration K V E) : Option (Action T) :=
  m.table.action? (m.top c.stack) (c.token.map m.reader.terminal)

/-- One step. -/
def step (m : Parser K T N V) (c : Configuration K V E) : Progress K T V E :=
  match m.action? c with
  | some (.shift state) => m.shift state c
  | some (.reduce p) => m.reduce p c
  | some .accept => m.accept c
  | some (.error message _ _) => m.reject (.reported message) (m.top c.stack) c
  | none => m.reject .noAction (m.top c.stack) c

/-- What a parser begins with: the start of the table at the bottom of the stack, and the
first token taken. -/
def begin (m : Parser K T N V) (input : List (Except E K)) : Progress K T V E :=
  pull ⟨[⟨m.table.start, none⟩], none, input, {}, 0⟩

/-- Take steps until the parse ends.  The answer is `none` if the given number of them is
not enough. -/
def run (m : Parser K T N V) : Nat → Progress K T V E →
    Option (Ending K T V E × Configuration K V E)
  | _, .ends how c => some (how, c)
  | 0, .continues _ => none
  | steps + 1, .continues c => m.run steps (m.step c)

/-- Parse a stream of tokens in at most so many steps. -/
def parse (m : Parser K T N V) (steps : Nat) (input : List (Except E K)) :
    Option (Ending K T V E × Configuration K V E) :=
  m.run steps (m.begin input)

end Parser

end BottomUp
