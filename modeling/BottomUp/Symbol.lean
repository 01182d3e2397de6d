import BottomUp.Order
import BottomUp.Text.Quoted

/-!
# Symbols

A right-hand side is a list of symbols, each a terminal or a nonterminal.  The two
alphabets are types of their own, so one name may be used in both.

A parser looks one terminal ahead.  At the end of the input there is none to see, so a
*lookahead* is an optional terminal, and `none` is the end of the input.  It comes before
every terminal.
-/

namespace BottomUp

/-- A symbol of a grammar with terminals `T` and nonterminals `N`. -/
inductive Symbol (T N : Type) where
  /-- A terminal. -/
  | terminal (t : T)
  /-- A nonterminal. -/
  | nonterminal (n : N)
deriving DecidableEq

/-- What a parser sees next: a terminal, or `none` at the end of the input. -/
abbrev Lookahead (T : Type) : Type := Option T

namespace Symbol

variable {T N : Type}

/-- The terminal, if the symbol is one. -/
def terminal? : Symbol T N → Option T
  | .terminal t => some t
  | .nonterminal _ => none

/-- The nonterminal, if the symbol is one. -/
def nonterminal? : Symbol T N → Option N
  | .terminal _ => none
  | .nonterminal n => some n

@[simp] theorem terminal?_eq_some {s : Symbol T N} {t : T} :
    s.terminal? = some t ↔ s = .terminal t := by
  cases s <;> simp [terminal?]

@[simp] theorem nonterminal?_eq_some {s : Symbol T N} {n : N} :
    s.nonterminal? = some n ↔ s = .nonterminal n := by
  cases s <;> simp [nonterminal?]

/-! ## The order: all terminals before all nonterminals -/

/-- Terminals come before nonterminals, and symbols of one kind are ordered by name. -/
def order [Ord T] [Ord N] : Symbol T N → Symbol T N → Ordering
  | .terminal t, .terminal t' => compare t t'
  | .terminal _, .nonterminal _ => .lt
  | .nonterminal _, .terminal _ => .gt
  | .nonterminal n, .nonterminal n' => compare n n'

instance [Ordered T] [Ordered N] : Ordered (Symbol T N) where
  compare := order
  eq_swap {a b} :=
    match a, b with
    | .terminal _, .terminal _ => Std.OrientedOrd.eq_swap
    | .terminal _, .nonterminal _ => rfl
    | .nonterminal _, .terminal _ => rfl
    | .nonterminal _, .nonterminal _ => Std.OrientedOrd.eq_swap
  isLE_trans {a b c} h h' :=
    match a, b, c, h, h' with
    | .terminal _, .terminal _, .terminal _, h, h' => Std.TransOrd.isLE_trans h h'
    | .terminal _, .terminal _, .nonterminal _, _, _ => rfl
    | .terminal _, .nonterminal _, .nonterminal _, _, _ => rfl
    | .nonterminal _, .nonterminal _, .nonterminal _, h, h' => Std.TransOrd.isLE_trans h h'
  compare_self {a} :=
    match a with
    | .terminal _ => Std.ReflOrd.compare_self
    | .nonterminal _ => Std.ReflOrd.compare_self
  eq_of_compare {a b} h :=
    match a, b, h with
    | .terminal _, .terminal _, h => congrArg _ (Ordered.compare_eq_iff.mp h)
    | .nonterminal _, .nonterminal _, h => congrArg _ (Ordered.compare_eq_iff.mp h)
  decEq := inferInstance

/-! ## Text -/

/-- The name of a symbol as it stands. -/
def display [ToString T] [ToString N] : Symbol T N → String
  | .terminal t => toString t
  | .nonterminal n => toString n

/-- A symbol is quoted as its name is. -/
instance [Quoted T] [Quoted N] : Quoted (Symbol T N) where
  quote
    | .terminal t => quote t
    | .nonterminal n => quote n

end Symbol

end BottomUp
