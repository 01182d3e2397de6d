import BottomUp.Automaton.Machine
import BottomUp.Grammar.Text

/-!
# Automata in words and as drawings

`Machine.drawing` writes an automaton in the Graphviz language: a box for each state that
lists its items, and an arrow for each transition.  An item is drawn as its production
with a bullet for the dot.  An LR(1) item is followed by its lookahead, the end of the
input as `$`.

`quote` writes the whole automaton on one line, with production and dot numbers for the
items.
-/

namespace BottomUp

variable {T N V Λ : Type} [Ordered T] [Ordered N] [Ordered Λ]

/-! ## On one line -/

instance : Quoted Lr0Item where
  quote i :=
    "Lr0Item \x7b prod: " ++ toString i.production ++ ", dot: " ++ toString i.dot ++ " \x7d"

/-- A lookahead as it is written in an item. -/
def Lookahead.mark [Quoted T] : Lookahead T → String
  | some t => quote t
  | none => "$"

instance [Quoted T] : Quoted (Lr1Item T) where
  quote i :=
    "[" ++ toString i.production ++ "." ++ toString i.dot ++ ", " ++ Lookahead.mark i.ahead ++ "]"

/-- A set stands in braces. -/
instance {α : Type} [Ordered α] [Quoted α] : Quoted (SortedSet α) where
  quote s := "\x7b" ++ Text.commas (s.toList.map quote) ++ "\x7d"

/-- A map stands in braces, with a colon between key and value. -/
instance {κ β : Type} [Ordered κ] [Quoted κ] [Quoted β] : Quoted (SortedMap κ β) where
  quote m := "\x7b" ++ Text.commas (m.toList.map fun (k, b) => quote k ++ ": " ++ quote b) ++ "\x7d"

variable [Quoted T] [Quoted N]

instance [Quoted (Item Λ)] : Quoted (State T N Λ) where
  quote state :=
    "(ItemSet \x7b items: " ++ quote state.items ++ " \x7d, " ++ quote state.transitions ++ ")"

instance [Quoted (Item Λ)] : Quoted (Machine T N Λ) where
  quote machine := "StateMachine \x7b states: " ++ quote machine.states ++ " \x7d"

/-! ## As a drawing -/

/-- A type of lookaheads that can be drawn. -/
class Drawn (Λ : Type) where
  /-- What stands behind an item with this lookahead. -/
  tail : Λ → String

instance : Drawn Unit := ⟨fun _ => ""⟩

instance : Drawn (Lookahead T) := ⟨fun ahead => ", " ++ Lookahead.mark ahead⟩

/-- Symbols with a blank before each. -/
def drawSymbols (symbols : List (Symbol T N)) : String :=
  String.join (symbols.map fun s => " " ++ quote s)

variable [Drawn Λ]

namespace Item

/-- An item as its production with a bullet for the dot. -/
def drawing (g : Grammar T N V) (i : Item Λ) : String :=
  match g.productions[i.production]? with
  | some p =>
      quote p.lhs ++ " →" ++ drawSymbols (p.rhs.take i.dot) ++ " •" ++
        drawSymbols (p.rhs.drop i.dot) ++ Drawn.tail i.ahead
  | none => ""

end Item

namespace Machine

/-- The box of a state and the arrows that leave it. -/
def drawState (g : Grammar T N V) (number : Nat) (state : State T N Λ) : String :=
  let box := "    s" ++ toString number ++ "[label=<" ++
    String.join (state.items.toList.map fun i => i.drawing g ++ "<br />") ++ ">]\n"
  let arrows := state.transitions.toList.map fun (s, target) =>
    "    s" ++ toString number ++ " -> s" ++ toString target ++ " [label=<" ++ quote s ++ ">]\n"
  box ++ String.join arrows

/-- The automaton in the Graphviz language. -/
def drawing (g : Grammar T N V) (machine : Machine T N Λ) : String :=
  "digraph G \x7b\n    node [\n        shape=\"box\",\n        style=\"rounded\",\n" ++
    "        penwidth=1,\n        width=2.0\n    ];\n" ++
    String.join (machine.states.zipIdx.map fun (state, number) => drawState g number state) ++
    "\x7d\n"

end Machine

end BottomUp
