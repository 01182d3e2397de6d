import BottomUp.Parser.Basic

/-!
# Traces of a parse

A trace tells each step of a parse: the action with what it acts on, and after a step that
does not end the parse the stack and the token ahead.
-/

namespace BottomUp

/-- An event of a parse. -/
inductive Event (K N : Type) where
  /-- A state is entered with a token. -/
  | shift (state : Nat)
  /-- A production is to be reduced. -/
  | reduce (production : Nat) (info : ProductionInfo N)
  /-- The input is to be accepted by a production. -/
  | accept (production : Nat) (info : ProductionInfo N)
  /-- The table has an error. -/
  | error (message : String)
  /-- The states on the stack, the bottom one first, and the token ahead. -/
  | stack (states : List Nat) (token : Option K)
deriving DecidableEq

namespace Parser

variable {K T N V E : Type} [Ordered T] [Ordered N]

/-- The event that announces the step from a configuration. -/
def announce (m : Parser K T N V) (c : Configuration K V E) : List (Event K N) :=
  match m.action? c with
  | some (.shift state) => [.shift state]
  | some (.reduce p) =>
      match m.table.productions[p]? with
      | some info => [.reduce p info]
      | none => []
  | some .accept =>
      let p := m.table.startProduction
      match m.table.productions[p]?, m.grammar.productions[p]? with
      | some info, some _ => [.accept p info]
      | _, _ => []
  | some (.error message _ _) => [.error message]
  | none => []

/-- The event that shows a configuration. -/
def display (c : Configuration K V E) : Event K N :=
  .stack (c.stack.map Entry.state).reverse c.token

/-- The events of at most so many steps from a configuration. -/
def eventsFrom (m : Parser K T N V) : Nat → Configuration K V E → List (Event K N)
  | 0, _ => []
  | steps + 1, c =>
      m.announce c ++
        match m.step c with
        | .continues c' => display c' :: m.eventsFrom steps c'
        | .ends _ _ => []

/-- The events of a parse of at most so many steps. -/
def events (m : Parser K T N V) (steps : Nat) (input : List (Except E K)) : List (Event K N) :=
  match (m.begin input : Progress K T V E) with
  | .continues c => m.eventsFrom steps c
  | .ends _ _ => []

end Parser

namespace Event

variable {K N : Type} [Quoted K] [Quoted N]

/-- A production as an event names it. -/
def production (p : Nat) (info : ProductionInfo N) : String :=
  toString p ++ " (" ++ quote info.lhs ++ ", " ++ toString info.len ++ " symbols)"

/-- An event in words. -/
def text : Event K N → String
  | shift state => "Shift " ++ toString state
  | reduce p info => "Reduce " ++ production p info
  | accept p info => "Accept " ++ production p info
  | error message => "Error " ++ quote message
  | stack states token => "stack " ++ quote states ++ ", lookahead " ++ quote token

/-- An event with its level in front. -/
def line (e : Event K N) : String := "TRACE " ++ e.text

end Event

end BottomUp
