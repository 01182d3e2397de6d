import BottomUp.First

/-!
# FOLLOW sets

The FOLLOW set of a nonterminal `A` holds the terminals that can stand right after it in
what some nonterminal of the grammar derives, and the end of the input if the start symbol
derives a string that ends in `A`.

A terminal follows `A` *directly* if it can begin the rest of a right-hand side after an
`A`.  If that rest can vanish, `A` stands at the end of what the left-hand side derives,
and whatever follows the left-hand side follows `A`.  So a FOLLOW set is read off the
nonterminals at whose ends `A` can stand.
-/

namespace BottomUp

/-- What can stand after a nonterminal. -/
structure FollowSet (T : Type) [Ordered T] where
  /-- The terminals that can stand after it. -/
  terminals : SortedSet T
  /-- Can the input end after it? -/
  atEnd : Bool
deriving DecidableEq

/-- The FOLLOW sets of the nonterminals of a grammar. -/
structure FollowSets (T N : Type) [Ordered T] [Ordered N] where
  /-- The set of each nonterminal. -/
  sets : SortedMap N (FollowSet T)

variable {T N V : Type} [Ordered T] [Ordered N]

/-- What stands after each occurrence of a nonterminal in a symbol string. -/
def Symbol.restsAfter (n : N) : List (Symbol T N) → List (List (Symbol T N))
  | [] => []
  | s :: rest => if s = .nonterminal n then rest :: restsAfter n rest else restsAfter n rest

namespace Grammar

/-- What stands after each occurrence of a nonterminal on a right-hand side, with the
left-hand side of that production. -/
def occurrences (g : Grammar T N V) (n : N) : List (N × List (Symbol T N)) :=
  g.productions.flatMap fun p => (Symbol.restsAfter n p.rhs).map fun rest => (p.lhs, rest)

/-- What can show after each occurrence of a nonterminal, up to the end of the right-hand
side, with the left-hand side.  The end shows where the rest can vanish. -/
def continuations (g : Grammar T N V) (first : FirstSets T N) (n : N) :
    List (N × SortedSet (Lookahead T)) :=
  (g.occurrences n).map fun (lhs, rest) => (lhs, first.ofSequence rest none)

/-- The terminals among continuations. -/
def terminalsAmong (after : List (N × SortedSet (Lookahead T))) : List T :=
  after.flatMap fun (_, aheads) => aheads.toList.filterMap id

/-- The left-hand sides of continuations that can vanish. -/
def vanishing (after : List (N × SortedSet (Lookahead T))) : List N :=
  after.filterMap fun (lhs, aheads) => if none ∈ aheads then some lhs else none

/-- The FOLLOW set of a nonterminal, given the continuations. -/
def followSet (g : Grammar T N V) (after : N → List (N × SortedSet (Lookahead T))) (start n : N) :
    FollowSet T :=
  let owners := reach (fun m => vanishing (after m)) g.nonterminals.length [n]
  { terminals := .ofList (owners.flatMap fun m => terminalsAmong (after m))
    atEnd := decide (start ∈ owners) }

end Grammar

namespace FollowSets

/-- The FOLLOW sets of a grammar from a start symbol. -/
def of (g : Grammar T N V) (start : N) : FollowSets T N :=
  let first := FirstSets.of g
  let after := Tabulated.of (g.continuations first) g.nonterminals
  ⟨.ofList (g.nonterminals.map fun n => (n, g.followSet after.get start n))⟩

/-- The FOLLOW set of a nonterminal, if it is listed. -/
def get? (follow : FollowSets T N) (n : N) : Option (FollowSet T) := follow.sets.get? n

/-- The lookaheads that can stand after a nonterminal, the end of the input last. -/
def lookaheads (follow : FollowSets T N) (n : N) : List (Lookahead T) :=
  match follow.get? n with
  | some set => set.terminals.toList.map some ++ if set.atEnd then [none] else []
  | none => []

end FollowSets

end BottomUp
