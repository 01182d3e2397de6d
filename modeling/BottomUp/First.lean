import BottomUp.Grammar.Basic
import BottomUp.Search
import BottomUp.Tabulated

/-!
# FIRST sets

The FIRST set of a nonterminal holds the terminals that can begin what it derives.  The
nonterminal is *nullable* if it derives the empty string.

Nullable nonterminals are found in rounds.  A round adds the left-hand sides of those
right-hand sides that vanish by what the rounds before found.  Every round but the last adds
a nonterminal, so there need not be more rounds than nonterminals.

The *opening* of a symbol string is its longest part that can show at the left: up to and
including the first symbol that does not vanish.  A terminal begins what `A` derives if it
stands in the opening of a right-hand side of `A`, or of a nonterminal in such an opening,
and so on.  So a FIRST set is read off the nonterminals that openings reach from `A`.

A sequence is looked at with the lookahead that follows it, which shows when the whole
sequence vanishes.  A nonterminal that the grammar does not list derives nothing.
-/

namespace BottomUp

/-- What a nonterminal or a symbol can begin with. -/
structure FirstSet (T : Type) [Ordered T] where
  /-- The terminals that can begin it. -/
  terminals : SortedSet T
  /-- Can it vanish? -/
  nullable : Bool
deriving DecidableEq

/-- The FIRST sets of the nonterminals of a grammar. -/
structure FirstSets (T N : Type) [Ordered T] [Ordered N] where
  /-- The set of each nonterminal. -/
  sets : SortedMap N (FirstSet T)

variable {T N V : Type} [Ordered T] [Ordered N]

/-! ## Nullable nonterminals -/

/-- Is the symbol one of some nonterminals? -/
def Symbol.isOneOf (names : SortedSet N) : Symbol T N → Bool
  | .terminal _ => false
  | .nonterminal n => decide (n ∈ names)

namespace Grammar

/-- The nonterminals with a right-hand side that consists of known nonterminals, those that
are not known themselves. -/
def newlyNullable (g : Grammar T N V) (known : SortedSet N) : List N :=
  (g.productions.filter fun p => p.lhs ∉ known && p.rhs.all (Symbol.isOneOf known)).map
    Production.lhs

/-- The known nonterminals and those that so many rounds add. -/
def nullableFrom (g : Grammar T N V) : Nat → SortedSet N → SortedSet N
  | 0, known => known
  | rounds + 1, known =>
      let new := g.newlyNullable known
      if new.isEmpty then known else g.nullableFrom rounds (known.insertAll new)

/-- The nonterminals that derive the empty string. -/
def nullables (g : Grammar T N V) : SortedSet N := g.nullableFrom g.nonterminals.length .empty

/-! ## Openings -/

/-- The symbols of a string up to and including the first one that does not vanish. -/
def opening (nullable : SortedSet N) : List (Symbol T N) → List (Symbol T N)
  | [] => []
  | s :: rest => s :: if s.isOneOf nullable then opening nullable rest else []

/-- The symbols in the openings of the right-hand sides of a nonterminal. -/
def openingSymbols (g : Grammar T N V) (nullable : SortedSet N) (n : N) : List (Symbol T N) :=
  (g.alternatives n).flatMap fun p => opening nullable (g.rhs p)

/-- The nonterminals that can show at the left of what a nonterminal derives, itself
included, given the symbols in openings. -/
def leftCorners (g : Grammar T N V) (openings : N → List (Symbol T N)) (n : N) : List N :=
  reach (fun m => (openings m).filterMap Symbol.nonterminal?) g.nonterminals.length [n]

/-- The terminals that can begin what a nonterminal derives, given the symbols in
openings. -/
def firstTerminals (g : Grammar T N V) (openings : N → List (Symbol T N)) (n : N) : SortedSet T :=
  .ofList ((g.leftCorners openings n).flatMap fun m => (openings m).filterMap Symbol.terminal?)

end Grammar

namespace FirstSets

/-- The FIRST sets of a grammar. -/
def of (g : Grammar T N V) : FirstSets T N :=
  let nullable := g.nullables
  let openings := Tabulated.of (g.openingSymbols nullable) g.nonterminals
  ⟨.ofList (g.nonterminals.map fun n =>
    (n, ⟨g.firstTerminals openings.get n, decide (n ∈ nullable)⟩))⟩

/-- The FIRST set of a nonterminal, if it is listed. -/
def get? (first : FirstSets T N) (n : N) : Option (FirstSet T) := first.sets.get? n

/-- The FIRST set of a symbol.  A terminal begins with itself, and a nonterminal that is
not listed with nothing. -/
def ofSymbol (first : FirstSets T N) : Symbol T N → FirstSet T
  | .terminal t => ⟨.ofList [t], false⟩
  | .nonterminal n => (first.get? n).getD ⟨.empty, false⟩

/-- What can show at the left of a sequence that a lookahead follows. -/
def ofSequence (first : FirstSets T N) : List (Symbol T N) → Lookahead T → SortedSet (Lookahead T)
  | [], ahead => .ofList [ahead]
  | s :: rest, ahead =>
      let set := first.ofSymbol s
      let own := SortedSet.ofList (set.terminals.toList.map some)
      if set.nullable then own.union (first.ofSequence rest ahead) else own

end FirstSets

end BottomUp
