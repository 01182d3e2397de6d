import BottomUp.First

/-!
# Items

An *item* is a production with a dot in its right-hand side: what stands left of the dot
has been read.  An item may say with which lookahead it is to be completed.  An LR(1) item
does, and an LR(0) item says nothing, so the type of lookaheads is a parameter.

The two kinds of automaton of a grammar differ only in a *lookahead rule*: which lookahead
the first item has, and which lookaheads can follow the nonterminal right of a dot.

An item may name a production that the grammar lacks, or have its dot beyond the
right-hand side.  Nothing follows such a dot.  Operations that need the productions are
defined on every item set and are meaningful on those whose productions `exist`.
-/

namespace BottomUp

/-- A production with a dot and a lookahead. -/
structure Item (Λ : Type) where
  /-- The number of the production. -/
  production : Nat
  /-- How many symbols of its right-hand side are read. -/
  dot : Nat
  /-- What the item expects after it. -/
  ahead : Λ
deriving DecidableEq

/-- An item that says nothing of lookaheads. -/
abbrev Lr0Item : Type := Item Unit

/-- An item with a terminal, or the end of the input, as its lookahead. -/
abbrev Lr1Item (T : Type) : Type := Item (Lookahead T)

namespace Item

variable {Λ : Type}

/-- Items are ordered by production, dot and lookahead. -/
def order [Ord Λ] : Item Λ → Item Λ → Ordering :=
  compareLex (compareOn production) (compareLex (compareOn dot) (compareOn ahead))

instance [Ordered Λ] : Std.TransCmp (order (Λ := Λ)) := by
  unfold order
  infer_instance

instance [Ordered Λ] : Ordered (Item Λ) where
  compare := order
  eq_swap {i j} := @Std.OrientedCmp.eq_swap _ order _ i j
  isLE_trans {i j k} := @Std.TransCmp.isLE_trans _ order _ i j k
  compare_self {i} := @Std.ReflCmp.compare_self _ order _ i
  eq_of_compare {i j} h := by
    obtain ⟨hp, hr⟩ := compareLex_eq_eq.mp h
    obtain ⟨hd, ha⟩ := compareLex_eq_eq.mp hr
    cases i
    cases j
    cases Ordered.compare_eq_iff.mp hp
    cases Ordered.compare_eq_iff.mp hd
    cases Ordered.compare_eq_iff.mp ha
    rfl
  decEq := inferInstance

/-- The item with one more symbol read. -/
def advance (i : Item Λ) : Item Λ := { i with dot := i.dot + 1 }

variable {T N V : Type}

/-- The symbols right of the dot. -/
def rest (g : Grammar T N V) (i : Item Λ) : List (Symbol T N) := (g.rhs i.production).drop i.dot

/-- The symbol right of the dot. -/
def next? (g : Grammar T N V) (i : Item Λ) : Option (Symbol T N) := (i.rest g).head?

/-- Is the whole right-hand side read? -/
def isComplete (g : Grammar T N V) (i : Item Λ) : Bool := (i.rest g).isEmpty

/-- Has the grammar a production of that number? -/
def exists? (g : Grammar T N V) (i : Item Λ) : Bool := i.production < g.productions.length

end Item

/-- A set of items. -/
abbrev ItemSet (Λ : Type) [Ordered Λ] : Type := SortedSet (Item Λ)

/-- Which lookaheads the items of an automaton of a grammar carry. -/
structure LookaheadRule {T N V : Type} [Ordered N] (g : Grammar T N V) (Λ : Type) where
  /-- The lookahead of the first item. -/
  initial : Λ
  /-- The lookaheads that can follow the nonterminal right of a dot, from what stands behind
  it in the item and from the lookahead of the item. -/
  inherit : List (Symbol T N) → Λ → List Λ
  /-- All lookaheads that `inherit` can bring in besides the one it is given. -/
  alphabet : List Λ
  /-- The alternatives of the nonterminals, which every closure looks up. -/
  alternatives : Tabulated g.alternatives := .of g.alternatives g.nonterminals

namespace LookaheadRule

variable {T N V : Type} [Ordered T] [Ordered N]

/-- LR(0) items carry nothing. -/
def lr0 (g : Grammar T N V) : LookaheadRule g Unit where
  initial := ()
  inherit _ _ := [()]
  alphabet := [()]

/-- What can follow a nonterminal in an LR(1) item is whatever the rest of the item can
begin with, in front of the lookahead of the item. -/
def lr1 (g : Grammar T N V) : LookaheadRule g (Lookahead T) :=
  let first := FirstSets.of g
  { initial := none
    inherit rest ahead := (first.ofSequence rest ahead).toList
    alphabet := g.terminals.toList.map some }

end LookaheadRule

end BottomUp
