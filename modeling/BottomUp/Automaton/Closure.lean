import BottomUp.Automaton.Item

/-!
# Closure and goto

An item with its dot before a nonterminal *demands* that nonterminal, with each lookahead
that can follow it there.  A demand is met by the alternatives of the nonterminal, as items
with the dot in front, and these make demands of their own.  The *closure* of an item set
adds all items that meet its demands, directly or through other demands.  `advancePast`
keeps the items with a symbol right of the dot and moves the dot over it, and `goto` closes
what that gives.

A demand is for a nonterminal of the grammar with a lookahead of the rule's alphabet or of a
given item, so there are at most as many as nonterminals times lookaheads.  That bounds the
layers in which demands are found.
-/

namespace BottomUp

/-- A nonterminal that is to be read, with the lookahead that is to follow it. -/
structure Demand (N Λ : Type) where
  /-- The nonterminal. -/
  nonterminal : N
  /-- What is to follow it. -/
  ahead : Λ
deriving DecidableEq

variable {T N V Λ : Type} [Ordered T] [Ordered N] [Ordered Λ]

namespace Demand

/-- Demands are ordered by nonterminal and lookahead. -/
def order : Demand N Λ → Demand N Λ → Ordering :=
  compareLex (compareOn nonterminal) (compareOn ahead)

instance : Std.TransCmp (order : Demand N Λ → Demand N Λ → Ordering) := by
  unfold order
  infer_instance

instance : Ordered (Demand N Λ) where
  compare := order
  eq_swap {d e} := @Std.OrientedCmp.eq_swap _ order _ d e
  isLE_trans {d e f} := @Std.TransCmp.isLE_trans _ order _ d e f
  compare_self {d} := @Std.ReflCmp.compare_self _ order _ d
  eq_of_compare {d e} h := by
    obtain ⟨hn, ha⟩ := compareLex_eq_eq.mp h
    cases d
    cases e
    cases Ordered.compare_eq_iff.mp hn
    cases Ordered.compare_eq_iff.mp ha
    rfl
  decEq := inferInstance

/-- The items that meet a demand. -/
def items {g : Grammar T N V} (rule : LookaheadRule g Λ) (d : Demand N Λ) : List (Item Λ) :=
  (rule.alternatives.get d.nonterminal).map fun p => ⟨p, 0, d.ahead⟩

end Demand

namespace Item

/-- What an item demands. -/
def demands {g : Grammar T N V} (rule : LookaheadRule g Λ) (i : Item Λ) : List (Demand N Λ) :=
  match i.rest g with
  | .nonterminal n :: rest => (rule.inherit rest i.ahead).map fun ahead => ⟨n, ahead⟩
  | _ => []

end Item

/-- What the items that meet a demand demand in turn. -/
def Demand.next {g : Grammar T N V} (rule : LookaheadRule g Λ) (d : Demand N Λ) :
    List (Demand N Λ) :=
  (d.items rule).flatMap (Item.demands rule)

namespace ItemSet

/-- Has the grammar a production for each item? -/
def exists? (g : Grammar T N V) (items : ItemSet Λ) : Bool := items.toList.all (Item.exists? g)

variable {g : Grammar T N V}

/-- What the items of a set demand, directly or through other demands. -/
def demands (rule : LookaheadRule g Λ) (items : ItemSet Λ) : List (Demand N Λ) :=
  reach (Demand.next rule) (g.nonterminals.length * (rule.alphabet.length + items.size))
    (items.toList.flatMap (Item.demands rule))

/-- The set with everything that meets its demands. -/
def closure (rule : LookaheadRule g Λ) (items : ItemSet Λ) : ItemSet Λ :=
  items.insertAll ((demands rule items).flatMap (Demand.items rule))

/-- The items with a symbol right of the dot, with the dot moved over it. -/
def advancePast (g : Grammar T N V) (items : ItemSet Λ) (s : Symbol T N) : ItemSet Λ :=
  .ofList ((items.toList.filter fun i => i.next? g = some s).map Item.advance)

/-- The closure of the items that have read one more symbol. -/
def goto (rule : LookaheadRule g Λ) (items : ItemSet Λ) (s : Symbol T N) : ItemSet Λ :=
  closure rule (advancePast g items s)

/-- The symbols right of the dots. -/
def nextSymbols (g : Grammar T N V) (items : ItemSet Λ) : SortedSet (Symbol T N) :=
  .ofList (items.toList.filterMap (Item.next? g))

/-- The symbols right of the dots in ascending order, each with the items that have read
it. -/
def exits (g : Grammar T N V) (items : ItemSet Λ) : List (Symbol T N × ItemSet Λ) :=
  let advanced := items.toList.filterMap fun i => (i.next? g).map fun s => (s, i.advance)
  (SortedMap.gather advanced).toList.map fun (s, read) => (s, .ofList read)

end ItemSet

end BottomUp
