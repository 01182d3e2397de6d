import BottomUp.Table.Draft
import BottomUp.Grammar.Text

/-!
# Settling a draft

Each cell of a draft is settled by itself.

* Acceptance tolerates nothing beside it.
* Of several reductions the one of the smallest production number is taken.
* A shift and a reduction on a terminal are settled by precedence.  The terminal speaks
  for the shift and the production for the reduction.  The higher level wins, and on one
  level the associativity decides: to the left the reduction, to the right the shift, and
  none of both an error.
* Where a precedence is missing the policy decides.  Either the shift is taken and the
  conflict recorded, or there is no table.

The cells are taken state by state, and in a state in the order of their lookaheads.  The
first that cannot be settled decides what is reported.  A cell without offers is an error,
so the finished table has an action for every terminal of the grammar.
-/

namespace BottomUp

/-- How a cell is settled. -/
inductive Verdict (T : Type) where
  /-- By an action. -/
  | action (a : Action T)
  /-- By the shift of a conflict, for want of a precedence. -/
  | defaulted (conflict : Conflict T)
deriving DecidableEq

namespace Verdict

variable {T : Type}

/-- The action that a verdict puts into the table. -/
def toAction : Verdict T → Action T
  | action a => a
  | defaulted conflict => .shift conflict.shift

/-- The conflict that a verdict records. -/
def conflict? : Verdict T → Option (Conflict T)
  | action _ => none
  | defaulted conflict => some conflict

end Verdict

/-- The action on a lookahead that nothing was offered for. -/
def Action.unexpected {T : Type} (ahead : Lookahead T) : Action T :=
  .error (if ahead.isSome then "unexpected token" else "unexpected end of input") [] ahead

/-- A line of the record that is kept while a table is made. -/
inductive Note (T N : Type) where
  /-- The automaton is built. -/
  | automaton (kind : String) (states : Nat)
  /-- Of several reductions one was taken. -/
  | reductionTaken (state : Nat) (ahead : Lookahead T) (production : Nat)
  /-- A precedence is missing. -/
  | noPrecedence (state : Nat) (t : T) (fault : GrammarError T N)
  /-- A shift was taken for want of a precedence. -/
  | shiftTaken (conflict : Conflict T)
  /-- The table is finished. -/
  | finished (states conflicts : Nat)
deriving DecidableEq

/-- What comes of making a table. -/
structure Compilation (T N : Type) [Ordered T] [Ordered N] where
  /-- The table, or why there is none. -/
  table : Except (CompileError T N) (ParseTable T N)
  /-- The conflicts settled for want of a precedence, up to the first failure. -/
  defaulted : List (Conflict T)
  /-- The record. -/
  notes : List (Note T N)

namespace Draft

variable {T N V : Type} [Ordered T] [Ordered N]

/-! ## One cell -/

/-- The precedences that compete in a cell: the terminal's and the production's. -/
def contest (d : Draft T N V) (t : T) (p : Nat) (production : Production T N V) :
    Except (GrammarError T N) (Precedence × Precedence) := do
  let ofTerminal ← d.grammar.terminalPrecedence t
  let ofProduction ← d.grammar.productionPrecedence p production
  return (ofTerminal, ofProduction)

/-- Decide between entering a state on a terminal and reducing a production, by the
precedences of the terminal and of the production. -/
def arbitrate (t : T) (target p : Nat) (ofTerminal ofProduction : Precedence) : Action T :=
  if ofProduction.level < ofTerminal.level then .shift target
  else if ofTerminal.level < ofProduction.level then .reduce p
  else
    match ofTerminal.assoc with
    | .left => .reduce p
    | .right => .shift target
    | .nonAssoc =>
        .error "non-associative operator used associatively" [.shift target, .reduce p] (some t)

/-- Settle a shift and a reduction on a terminal.  A production that the grammar lacks
does not compete. -/
def settlePair (d : Draft T N V) (policy : Policy T) (state : Nat) (t : T) (target p : Nat) :
    Except (CompileError T N) (Verdict T) :=
  match d.grammar.productions[p]? with
  | none => .ok (.action (.shift target))
  | some production =>
      match d.contest t p production with
      | .ok (ofTerminal, ofProduction) =>
          .ok (.action (arbitrate t target p ofTerminal ofProduction))
      | .error fault =>
          if policy.shiftOnUndeclared then .ok (.defaulted ⟨state, t, target, p⟩)
          else .error (.grammar fault)

/-- Settle a cell. -/
def settle (d : Draft T N V) (policy : Policy T) (state : Nat) (ahead : Lookahead T)
    (cell : Cell) : Except (CompileError T N) (Verdict T) :=
  if cell.accept then
    match cell.shift?, cell.reduces.toList with
    | some target, _ => .error (.conflict state ahead .accept (.shift target))
    | none, p :: _ => .error (.conflict state ahead .accept (.reduce p))
    | none, [] => .ok (.action .accept)
  else
    match cell.shift?, cell.reduces.toList, ahead with
    | some target, p :: _, some t => d.settlePair policy state t target p
    | some target, _, _ => .ok (.action (.shift target))
    | none, p :: _, _ => .ok (.action (.reduce p))
    | none, [], _ => .ok (.action (.unexpected ahead))

/-- The notes that settling a cell leaves. -/
def cellNotes (d : Draft T N V) (policy : Policy T) (state : Nat) (ahead : Lookahead T)
    (cell : Cell) : List (Note T N) :=
  let taken :=
    match cell.accept, cell.reduces.toList with
    | false, p :: _ :: _ => [.reductionTaken state ahead p]
    | _, _ => []
  let defaulted :=
    match d.settle policy state ahead cell with
    | .ok (.defaulted conflict) =>
        match d.grammar.productions[conflict.reduce]? with
        | none => []
        | some production =>
            match d.contest conflict.ahead conflict.reduce production with
            | .ok _ => []
            | .error fault => [.noPrecedence state conflict.ahead fault, .shiftTaken conflict]
    | _ => []
  taken ++ defaulted

/-! ## The whole table -/

/-- A cell with its state and its lookahead. -/
structure Site (T : Type) where
  /-- The state. -/
  state : Nat
  /-- The lookahead. -/
  ahead : Lookahead T
  /-- What is offered there. -/
  cell : Cell

/-- The cells in the order in which they are settled. -/
def sites (d : Draft T N V) : List (Site T) :=
  d.rows.toList.zipIdx.flatMap fun (row, state) =>
    row.cells.toList.map fun (ahead, cell) => ⟨state, ahead, cell⟩

/-- Settle a cell at its place. -/
def settleSite (d : Draft T N V) (policy : Policy T) (site : Site T) :
    Except (CompileError T N) (Verdict T) :=
  d.settle policy site.state site.ahead site.cell

/-- The first cell that cannot be settled decides what is reported. -/
def failure? (d : Draft T N V) (policy : Policy T) : Option (CompileError T N) :=
  d.sites.findSome? fun site =>
    match d.settleSite policy site with
    | .ok _ => none
    | .error e => some e

/-- The cells before the first that cannot be settled. -/
def settledSites (d : Draft T N V) (policy : Policy T) : List (Site T) :=
  d.sites.takeWhile fun site => (d.settleSite policy site).isOk

/-- The cells that are looked at: those before the first that cannot be settled, and that
one. -/
def visitedSites (d : Draft T N V) (policy : Policy T) : List (Site T) :=
  d.sites.take ((d.settledSites policy).length + 1)

/-- The conflicts settled for want of a precedence, up to the first failure. -/
def defaulted (d : Draft T N V) (policy : Policy T) : List (Conflict T) :=
  (d.settledSites policy).filterMap fun site =>
    match d.settleSite policy site with
    | .ok verdict => verdict.conflict?
    | .error _ => none

/-- The action that a cell gets.  One that cannot be settled is an error. -/
def settledAction (d : Draft T N V) (policy : Policy T) (state : Nat) (ahead : Lookahead T)
    (cell : Cell) : Action T :=
  match d.settle policy state ahead cell with
  | .ok verdict => verdict.toAction
  | .error _ => .unexpected ahead

/-- The finished row of a state. -/
def finishRow (d : Draft T N V) (policy : Policy T) (state : Nat) (row : DraftRow T N) :
    Row T N where
  atEnd :=
    match row.cells.get? none with
    | some cell => d.settledAction policy state none cell
    | none => .unexpected none
  actions := .ofList <|
    (d.grammar.terminals.toList.map fun t => (t, .unexpected (some t))) ++
      row.cells.toList.filterMap fun (ahead, cell) =>
        ahead.map fun t => (t, d.settledAction policy state ahead cell)
  gotos := row.gotos

/-- The table with every cell settled. -/
def finished (d : Draft T N V) (policy : Policy T) : ParseTable T N where
  rows := d.rows.toList.zipIdx.map fun (row, state) => d.finishRow policy state row
  start := 0
  startProduction := d.startProduction
  productions := d.grammar.productions.map fun p => ⟨p.lhs, p.rhs.length⟩
  conflicts := d.defaulted policy

/-- Settle every cell. -/
def finish (d : Draft T N V) (policy : Policy T) : Compilation T N :=
  let conflicts := d.defaulted policy
  let notes := (d.visitedSites policy).flatMap fun site =>
    d.cellNotes policy site.state site.ahead site.cell
  match d.failure? policy with
  | some e => ⟨.error e, conflicts, notes⟩
  | none =>
      ⟨.ok (d.finished policy), conflicts, notes ++ [.finished d.rows.size conflicts.length]⟩

end Draft

namespace Note

variable {T N V : Type} [Quoted T] [Quoted N]

/-- A production of the grammar in words, and nothing if there is none. -/
def production (g : Grammar T N V) (p : Nat) : String := (g.productions[p]?.map quote).getD ""

/-- How grave a note is: a shift taken for want of a precedence is a warning. -/
def level : Note T N → String
  | shiftTaken _ => "WARN"
  | _ => "DEBUG"

/-- A note in words. -/
def text (g : Grammar T N V) : Note T N → String
  | automaton kind states => kind ++ " automaton: " ++ toString states ++ " states"
  | reductionTaken state ahead p =>
      "reduce/reduce conflict in state " ++ toString state ++ " on " ++ quote ahead ++
        " resolved in favour of Some(" ++ production g p ++ ")"
  | noPrecedence state t fault =>
      "no precedence to settle state " ++ toString state ++ " on " ++ quote t ++ ": " ++
        fault.message
  | shiftTaken conflict =>
      "shift/reduce conflict in state " ++ toString conflict.state ++ " on " ++
        quote conflict.ahead ++ " resolved as shift: " ++ production g conflict.reduce
  | finished states conflicts =>
      "parse table: " ++ toString states ++ " states, " ++ toString conflicts ++
        " defaulted conflicts"

/-- A note with its level in front. -/
def line (g : Grammar T N V) (note : Note T N) : String := note.level ++ " " ++ note.text g

end Note

end BottomUp
