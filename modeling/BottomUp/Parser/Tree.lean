import BottomUp.Grammar.Derivation
import BottomUp.Parser.Basic

/-!
# Derivation trees

A derivation tree has tokens for leaves and productions for inner nodes.  It is a tree of
a grammar if the children of each node stand for the symbols of the right-hand side.  Its
*frontier* is the string of its tokens, and its value is what the actions of the grammar
make of the values of the tokens.

The root of a tree of a grammar derives the terminals of the frontier
(`IsOf.derives_frontier`).
-/

namespace BottomUp

/-- A tree over tokens.  An inner node names a production by its number. -/
inductive Tree (K : Type) where
  /-- A token. -/
  | leaf (k : K)
  /-- A production with the trees of its right-hand side. -/
  | node (production : Nat) (children : List (Tree K))

namespace Tree

variable {K T N V : Type}

/-! ## What a tree shows -/

mutual

/-- The tokens at the leaves from left to right. -/
def frontier : Tree K → List K
  | leaf k => [k]
  | node _ children => frontiers children

/-- The tokens at the leaves of some trees. -/
def frontiers : List (Tree K) → List K
  | [] => []
  | t :: ts => frontier t ++ frontiers ts

end

mutual

/-- The number of inner nodes. -/
def nodes : Tree K → Nat
  | leaf _ => 0
  | node _ children => nodesOfAll children + 1

/-- The number of inner nodes of some trees. -/
def nodesOfAll : List (Tree K) → Nat
  | [] => 0
  | t :: ts => nodes t + nodesOfAll ts

end

mutual

/-- The value of a tree, if its nodes name productions of the grammar. -/
def value? (g : Grammar T N V) (r : Reader K T V) : Tree K → Option V
  | leaf k => some (r.value k)
  | node p children => do
      let production ← g.productions[p]?
      return production.act (← values? g r children)

/-- The values of some trees, if all of them have one. -/
def values? (g : Grammar T N V) (r : Reader K T V) : List (Tree K) → Option (List V)
  | [] => some []
  | t :: ts => do return (← value? g r t) :: (← values? g r ts)

end

/-- The symbol at the root: the terminal of a token or the left-hand side of a
production. -/
def symbol? (g : Grammar T N V) (r : Reader K T V) : Tree K → Option (Symbol T N)
  | leaf k => some (.terminal (r.terminal k))
  | node p _ => g.productions[p]?.map fun production => .nonterminal production.lhs

/-- The children of each node stand for the right-hand side of its production. -/
inductive IsOf (g : Grammar T N V) (r : Reader K T V) : Tree K → Prop
  /-- A token is a tree of every grammar. -/
  | leaf (k : K) : IsOf g r (.leaf k)
  /-- A production goes over the trees of its right-hand side. -/
  | node {p : Nat} {production : Production T N V} {children : List (Tree K)} :
      g.productions[p]? = some production →
      children.map (symbol? g r) = production.rhs.map some →
      (∀ t ∈ children, IsOf g r t) → IsOf g r (.node p children)

/-! ## Laws -/

variable {g : Grammar T N V} {r : Reader K T V}

theorem frontiers_eq_flatMap : ∀ ts : List (Tree K), frontiers ts = ts.flatMap frontier
  | [] => by simp [frontiers]
  | t :: ts => by rw [frontiers, frontiers_eq_flatMap ts, List.flatMap_cons]

@[simp] theorem frontiers_append (ts us : List (Tree K)) :
    frontiers (ts ++ us) = frontiers ts ++ frontiers us := by
  simp only [frontiers_eq_flatMap, List.flatMap_append]

@[simp] theorem nodesOfAll_append (us : List (Tree K)) : ∀ ts : List (Tree K),
    nodesOfAll (ts ++ us) = nodesOfAll ts + nodesOfAll us
  | [] => by rw [List.nil_append, nodesOfAll, Nat.zero_add]
  | t :: ts => by
      rw [List.cons_append, nodesOfAll, nodesOfAll, nodesOfAll_append us ts, Nat.add_assoc]

/-- Trees that derive their frontiers one by one do so side by side. -/
theorem derives_frontiers : ∀ {ts : List (Tree K)} {symbols : List (Symbol T N)},
    ts.map (symbol? g r) = symbols.map some →
    (∀ t ∈ ts, ∀ s, t.symbol? g r = some s →
      g.Derives [s] (t.frontier.map fun k => .terminal (r.terminal k))) →
    g.Derives symbols ((frontiers ts).map fun k => .terminal (r.terminal k))
  | [], [], _, _ => .refl
  | t :: ts, s :: symbols, hs, ht => by
      simp only [List.map_cons, List.cons.injEq] at hs
      have first := ht t List.mem_cons_self s hs.1
      have rest := derives_frontiers hs.2 fun t h => ht t (List.mem_cons_of_mem _ h)
      simpa [frontiers] using first.append rest
  | [], _ :: _, hs, _ => by simp at hs
  | _ :: _, [], hs, _ => by simp at hs

/-- The root of a tree of a grammar derives the terminals of its frontier. -/
theorem IsOf.derives_frontier {t : Tree K} (h : t.IsOf g r) :
    ∀ s, t.symbol? g r = some s →
      g.Derives [s] (t.frontier.map fun k => .terminal (r.terminal k)) := by
  induction h with
  | leaf k =>
      intro s hs
      cases hs
      exact .refl
  | @node p production children hp hs _ ih =>
      intro s hroot
      simp only [symbol?, hp, Option.map_some, Option.some.injEq] at hroot
      subst hroot
      rw [frontier]
      exact (Grammar.Derives.of_production (List.mem_of_getElem? hp)).trans
        (derives_frontiers hs ih)

end Tree

end BottomUp
