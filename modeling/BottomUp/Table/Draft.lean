import BottomUp.Automaton.Machine
import BottomUp.Table.Basic

/-!
# Drafts of tables

A *draft* collects what an automaton offers for each cell of a table before anything is
settled.  A cell may be offered a shift, any number of reductions and acceptance.
Reducing the start production at the end of the input is acceptance.  A policy may veto
other reductions.  A vetoed reduction leaves a cell behind that holds nothing.

Shifts into two different states are refused and leave the draft as it was.  Apart from
that, what a draft holds depends on the set of offers alone and not on their order.
-/

namespace BottomUp

/-- Why no table comes about. -/
inductive CompileError (T N : Type) where
  /-- The grammar has a fault. -/
  | grammar (fault : GrammarError T N)
  /-- Two actions compete for a cell, and nothing can settle it. -/
  | conflict (state : Nat) (ahead : Lookahead T) (existing incoming : Action T)
deriving DecidableEq

/-- The choices that are left to the user of a table. -/
structure Policy (T : Type) where
  /-- May the production with this number be reduced on this lookahead? -/
  reduceOn : Nat → Lookahead T → Bool := fun _ _ => true
  /-- Is the shift taken where a precedence is missing? -/
  shiftOnUndeclared : Bool := true

/-- What is offered for a cell. -/
structure Cell where
  /-- The state that a shift enters. -/
  shift? : Option Nat := none
  /-- The productions that can be reduced. -/
  reduces : SortedSet Nat := .empty
  /-- Can the input be accepted? -/
  accept : Bool := false
deriving DecidableEq

/-- The row of a state in a draft. -/
structure DraftRow (T N : Type) [Ordered T] [Ordered N] where
  /-- The cells for which there was an offer. -/
  cells : SortedMap (Lookahead T) Cell := .empty
  /-- The state that follows a reduction to each nonterminal. -/
  gotos : SortedMap N Nat := .empty

/-- A table before its cells are settled. -/
structure Draft (T N V : Type) [Ordered T] [Ordered N] where
  /-- The grammar. -/
  grammar : Grammar T N V
  /-- The production that an accepted input completes. -/
  startProduction : Nat
  /-- The rows of the states in the order of their numbers. -/
  rows : Array (DraftRow T N)

/-- An offer for a cell. -/
inductive Offer (T : Type) where
  /-- On a terminal, enter a state. -/
  | shift (state : Nat) (t : T) (target : Nat)
  /-- On a lookahead, reduce a production. -/
  | reduce (state : Nat) (ahead : Lookahead T) (production : Nat)
deriving DecidableEq

/-- A transition of an automaton: from a state, on a symbol, to a state. -/
structure Transition (T N : Type) where
  /-- The state it leaves. -/
  source : Nat
  /-- The symbol it reads. -/
  symbol : Symbol T N
  /-- The state it enters. -/
  target : Nat
deriving DecidableEq

namespace Draft

variable {T N V : Type} [Ordered T] [Ordered N]

/-- The draft of so many states with no offers. -/
def blank (g : Grammar T N V) (startProduction states : Nat) : Draft T N V :=
  ⟨g, startProduction, Array.replicate states {}⟩

/-- The cell of a state on a lookahead, without offers if there were none. -/
def cell (d : Draft T N V) (state : Nat) (ahead : Lookahead T) : Cell :=
  match d.rows[state]? with
  | some row => (row.cells.get? ahead).getD {}
  | none => {}

/-- The draft with another cell.  A state that the draft lacks has no cells. -/
def setCell (d : Draft T N V) (state : Nat) (ahead : Lookahead T) (cell : Cell) : Draft T N V :=
  { d with rows := d.rows.modify state fun row =>
      { row with cells := row.cells.insert ahead cell } }

/-- The draft with another goto. -/
def setGoto (d : Draft T N V) (state : Nat) (n : N) (target : Nat) : Draft T N V :=
  { d with rows := d.rows.modify state fun row =>
      { row with gotos := row.gotos.insert n target } }

/-- Is the reduction of a production on a lookahead acceptance? -/
def accepts (d : Draft T N V) (production : Nat) (ahead : Lookahead T) : Bool :=
  production == d.startProduction && ahead.isNone

/-- Make an offer.  Only a shift can be refused, if another one is in the cell. -/
def offer (d : Draft T N V) (policy : Policy T) : Offer T → Except (CompileError T N) (Draft T N V)
  | .shift state t target =>
      let cell := d.cell state (some t)
      match cell.shift? with
      | none => .ok (d.setCell state (some t) { cell with shift? := some target })
      | some existing =>
          if existing = target then .ok d
          else .error (.conflict state (some t) (.shift existing) (.shift target))
  | .reduce state ahead production =>
      let cell := d.cell state ahead
      .ok <| d.setCell state ahead <|
        if d.accepts production ahead then { cell with accept := true }
        else if policy.reduceOn production ahead then
          { cell with reduces := cell.reduces.insert production }
        else cell

/-- Add a transition: a shift if it reads a terminal, a goto if it reads a nonterminal. -/
def connect (d : Draft T N V) (policy : Policy T) (t : Transition T N) :
    Except (CompileError T N) (Draft T N V) :=
  match t.symbol with
  | .terminal a => d.offer policy (.shift t.source a t.target)
  | .nonterminal n => .ok (d.setGoto t.source n t.target)

/-! ## Drafts that are written by hand

Offers from elsewhere may speak of states and productions that do not exist.  They are
told apart from offers that are refused. -/

/-- Does the offer speak of a state of the draft, and of a production of the grammar if
the policy is to be asked about it? -/
def knows (d : Draft T N V) : Offer T → Bool
  | .shift state _ _ => state < d.rows.size
  | .reduce state ahead production =>
      state < d.rows.size &&
        (d.accepts production ahead || production < d.grammar.productions.length)

/-- Make an offer that may speak of what does not exist.  The answer is then `none`. -/
def tryOffer (d : Draft T N V) (policy : Policy T) (o : Offer T) :
    Option (Except (CompileError T N) (Draft T N V)) :=
  if d.knows o then some (d.offer policy o) else none

/-- Add transitions up to the first that is refused, and keep those before it.  The
answer is `none` if one speaks of a state that does not exist. -/
def tryConnect (d : Draft T N V) (policy : Policy T) :
    List (Transition T N) → Option (Draft T N V × Option (CompileError T N))
  | [] => some (d, none)
  | t :: ts =>
      if t.source < d.rows.size then
        match d.connect policy t with
        | .ok d' => d'.tryConnect policy ts
        | .error e => some (d, some e)
      else none

end Draft

namespace CompileError

variable {T N : Type} [Quoted T] [Quoted N]

/-- The report of an error. -/
def message : CompileError T N → String
  | grammar fault => fault.message
  | conflict state ahead existing incoming =>
      "conflict in state " ++ toString state ++ " on " ++ quote ahead ++ ": " ++
        quote existing ++ " vs " ++ quote incoming

end CompileError

namespace Machine

variable {T N Λ : Type} [Ordered T] [Ordered N] [Ordered Λ]

/-- The transitions of an automaton, state by state and in the order of their symbols. -/
def transitions (machine : Machine T N Λ) : List (Transition T N) :=
  machine.states.zipIdx.flatMap fun (state, i) =>
    state.transitions.toList.map fun (s, target) => ⟨i, s, target⟩

end Machine

end BottomUp
