import BottomUp.Automaton.Machine

/-!
# Paths of an automaton

A symbol string labels a path from a state if there is a transition on each of its symbols
in turn.  Transitions are functional, so it labels at most one.
-/

namespace BottomUp.Machine

variable {T N Λ : Type} [Ordered T] [Ordered N] [Ordered Λ]

/-- The items of a state, and none if there is no such state. -/
def items (machine : Machine T N Λ) (i : Nat) : ItemSet Λ :=
  match machine.states[i]? with
  | some state => state.items
  | none => .empty

/-- The state that a symbol leads to. -/
def next? (machine : Machine T N Λ) (i : Nat) (s : Symbol T N) : Option Nat :=
  machine.states[i]?.bind fun state => state.transitions.get? s

/-- The state at the end of the path that a string labels. -/
def follow? (machine : Machine T N Λ) (i : Nat) : List (Symbol T N) → Option Nat
  | [] => some i
  | s :: symbols => (machine.next? i s).bind fun j => machine.follow? j symbols

/-- A string labels a path if its parts label two that meet. -/
theorem follow?_append (machine : Machine T N Λ) : ∀ (i : Nat) (a b : List (Symbol T N)),
    machine.follow? i (a ++ b) = (machine.follow? i a).bind fun j => machine.follow? j b
  | _, [], _ => rfl
  | i, s :: a, b => by
      simp only [List.cons_append, follow?]
      cases machine.next? i s with
      | none => rfl
      | some j => exact follow?_append machine j a b

end BottomUp.Machine
