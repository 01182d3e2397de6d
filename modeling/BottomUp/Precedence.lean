import BottomUp.Order
import BottomUp.Text.Quoted

/-!
# Operator precedence

Operators are declared in groups, the loosest first.  The group number is the *level* of
its members, and the group says how operators of one level associate.  A terminal should
stand in one group only.  If it stands in several the first one counts, and
`PrecedenceTable.duplicate?` reports it.
-/

namespace BottomUp

/-- How operators of one level associate. -/
inductive Assoc where
  /-- To the left: `a - b - c` is `(a - b) - c`. -/
  | left
  /-- To the right: `a ^ b ^ c` is `a ^ (b ^ c)`. -/
  | right
  /-- Not at all: `a < b < c` is an error. -/
  | nonAssoc
deriving DecidableEq, Repr

instance : Quoted Assoc where
  quote
    | .left => "Left"
    | .right => "Right"
    | .nonAssoc => "NonAssoc"

/-- The binding strength of an operator. -/
structure Precedence where
  /-- The number of its group.  A higher level binds tighter. -/
  level : Nat
  /-- How its level associates. -/
  assoc : Assoc
deriving DecidableEq, Repr

/-- A group of operators of one level. -/
structure PrecedenceGroup (T : Type) where
  /-- How the level associates. -/
  assoc : Assoc
  /-- The operators, as declared. -/
  members : List T
deriving DecidableEq, Repr

/-- The declared groups, the loosest first. -/
structure PrecedenceTable (T : Type) where
  /-- The groups in declaration order. -/
  groups : List (PrecedenceGroup T) := []
deriving DecidableEq, Repr

namespace PrecedenceTable

variable {T : Type}

/-- Declare a group that binds tighter than all groups before it. -/
def declare (table : PrecedenceTable T) (assoc : Assoc) (members : List T) : PrecedenceTable T :=
  ⟨table.groups ++ [⟨assoc, members⟩]⟩

/-- Every declared terminal in declaration order, as often as it is declared. -/
def declared (table : PrecedenceTable T) : List T := table.groups.flatMap (·.members)

variable [DecidableEq T]

/-- The precedence of a terminal in groups of which the first has the given level. -/
def lookupFrom (t : T) : Nat → List (PrecedenceGroup T) → Option Precedence
  | _, [] => none
  | level, group :: groups =>
      if t ∈ group.members then some ⟨level, group.assoc⟩ else lookupFrom t (level + 1) groups

/-- The precedence of a terminal: that of the first group that declares it. -/
def lookup (table : PrecedenceTable T) (t : T) : Option Precedence := lookupFrom t 0 table.groups

/-- The first member of a list that occurred before, either in `seen` or earlier in the
list. -/
def firstRepeat (seen : List T) : List T → Option T
  | [] => none
  | t :: ts => if t ∈ seen then some t else firstRepeat (t :: seen) ts

/-- The terminal whose second declaration comes first, if some terminal is declared
twice. -/
def duplicate? (table : PrecedenceTable T) : Option T := firstRepeat [] table.declared

end PrecedenceTable

end BottomUp
