import BottomUp.SortedMap
import BottomUp.Symbol

/-!
# Parse tables

A parse table says what a parser does in each state on each lookahead.  A row holds the
actions of a state, one at the end of the input and one for each terminal, and the state
that follows a reduction to each nonterminal.

A table is plain data.  It keeps the left-hand side and the length of every production, so
a parser needs the grammar only for the actions that compute values.  A table that was not
made from a grammar may hold any numbers.
-/

namespace BottomUp

/-! ## Actions -/

/-- What a parser does on a lookahead. -/
inductive Action (T : Type) where
  /-- Take the token and enter a state. -/
  | shift (state : Nat)
  /-- Replace the right-hand side of a production by its left-hand side. -/
  | reduce (production : Nat)
  /-- The input is a sentence. -/
  | accept
  /-- The lookahead is an error.  The action keeps the message, the actions that competed
  for the cell and the lookahead. -/
  | error (message : String) (conflicts : List (Action T)) (ahead : Lookahead T)

namespace Action

variable {T : Type}

/-- Is the action an error? -/
def isError : Action T → Bool
  | .error .. => true
  | _ => false

mutual

/-- Equality of actions is decided by comparing their parts. -/
def decEq [DecidableEq T] : (a b : Action T) → Decidable (a = b)
  | .shift s, .shift s' => decidable_of_iff (s = s') (by simp)
  | .reduce p, .reduce p' => decidable_of_iff (p = p') (by simp)
  | .accept, .accept => .isTrue rfl
  | .error m cs a, .error m' cs' a' =>
      match decEqList cs cs' with
      | .isTrue h => decidable_of_iff (m = m' ∧ a = a') (by simp [h])
      | .isFalse h => .isFalse (by simp [h])
  | .shift _, .reduce _ | .shift _, .accept | .shift _, .error .. => .isFalse nofun
  | .reduce _, .shift _ | .reduce _, .accept | .reduce _, .error .. => .isFalse nofun
  | .accept, .shift _ | .accept, .reduce _ | .accept, .error .. => .isFalse nofun
  | .error .., .shift _ | .error .., .reduce _ | .error .., .accept => .isFalse nofun

/-- Equality of lists of actions. -/
def decEqList [DecidableEq T] : (as bs : List (Action T)) → Decidable (as = bs)
  | [], [] => .isTrue rfl
  | [], _ :: _ => .isFalse nofun
  | _ :: _, [] => .isFalse nofun
  | a :: as, b :: bs =>
      match decEq a b, decEqList as bs with
      | .isTrue h, .isTrue h' => .isTrue (by rw [h, h'])
      | .isFalse h, _ => .isFalse (by simp [h])
      | _, .isFalse h => .isFalse (by simp [h])

end

instance [DecidableEq T] : DecidableEq (Action T) := decEq

mutual

/-- An action as it is written in a message. -/
def write [Quoted T] : Action T → String
  | .shift s => "Shift(" ++ toString s ++ ")"
  | .reduce p => "Reduce(" ++ toString p ++ ")"
  | .accept => "Accept"
  | .error m cs a =>
      "Error \x7b message: " ++ quote m ++ ", conflicts: [" ++ Text.commas (writeAll cs) ++
        "], lookahead: " ++ quote a ++ " \x7d"

/-- Each action of a list as it is written in a message. -/
def writeAll [Quoted T] : List (Action T) → List String
  | [] => []
  | a :: as => write a :: writeAll as

end

instance [Quoted T] : Quoted (Action T) := ⟨write⟩

end Action

/-! ## Rows and tables -/

/-- A shift that was preferred to a reduction for want of a precedence. -/
structure Conflict (T : Type) where
  /-- The state. -/
  state : Nat
  /-- The terminal on which both were possible. -/
  ahead : T
  /-- The state that the shift enters. -/
  shift : Nat
  /-- The production that is not reduced. -/
  reduce : Nat
deriving DecidableEq, Repr

/-- What a parser needs to know of a production to reduce it. -/
structure ProductionInfo (N : Type) where
  /-- The left-hand side. -/
  lhs : N
  /-- The number of symbols of the right-hand side. -/
  len : Nat
deriving DecidableEq, Repr

/-- The row of a state. -/
structure Row (T N : Type) [Ordered T] [Ordered N] where
  /-- The action at the end of the input. -/
  atEnd : Action T
  /-- The action on each terminal. -/
  actions : SortedMap T (Action T)
  /-- The state that follows a reduction to each nonterminal. -/
  gotos : SortedMap N Nat
deriving DecidableEq

/-- A parse table. -/
structure ParseTable (T N : Type) [Ordered T] [Ordered N] where
  /-- The rows of the states in the order of their numbers. -/
  rows : List (Row T N)
  /-- The state a parser starts in. -/
  start : Nat
  /-- The production that an accepted input completes. -/
  startProduction : Nat
  /-- The productions in the order of their numbers. -/
  productions : List (ProductionInfo N)
  /-- The conflicts that were settled for want of a precedence, in the order of cells. -/
  conflicts : List (Conflict T)
deriving DecidableEq

namespace ParseTable

variable {T N : Type} [Ordered T] [Ordered N]

/-- The action of a state on a lookahead, if the table has one. -/
def action? (table : ParseTable T N) (state : Nat) (ahead : Lookahead T) : Option (Action T) :=
  match table.rows[state]?, ahead with
  | some row, some t => row.actions.get? t
  | some row, none => some row.atEnd
  | none, _ => none

/-- The state that follows a reduction to a nonterminal above a state. -/
def goto? (table : ParseTable T N) (state : Nat) (n : N) : Option Nat :=
  match table.rows[state]? with
  | some row => row.gotos.get? n
  | none => none

/-- The lookaheads on which a state has an action other than an error, the end of the
input last. -/
def expected (table : ParseTable T N) (state : Nat) : List (Lookahead T) :=
  match table.rows[state]? with
  | some row =>
      (row.actions.toList.filter fun (_, a) => !a.isError).map (fun (t, _) => some t) ++
        if row.atEnd.isError then [] else [none]
  | none => []

/-- Was a conflict settled for want of a precedence? -/
def hasConflicts (table : ParseTable T N) : Bool := !table.conflicts.isEmpty

end ParseTable

end BottomUp
