import BottomUp.Automaton.Closure
import BottomUp.Grammar.Validate

/-!
# Automata

The states of an automaton are closed item sets, each once.  State 0 is the closure of a
given kernel.  From a state there is a transition on each symbol right of a dot, to the
`goto` of the state on that symbol.  The states are numbered in the order in which a
breadth-first search finds them that takes the symbols of a state in ascending order.  An
empty kernel has no automaton, so its machine has no states.

The search goes over kernels and closes each once.  A closed set that a transition leads to
is the closure of its items that have read something.  Taking these for its kernel wherever
they suffice (`ItemSet.kernelOf`) gives different kernels to different states, and one to
each.

A kernel is a set of items, and an item of a state has its dot within the right-hand side
or comes from the given kernel, so the number of sets of such items bounds the search.
-/

namespace BottomUp

variable {T N V Λ : Type} [Ordered T] [Ordered N] [Ordered Λ]

/-- A state of an automaton. -/
structure State (T N Λ : Type) [Ordered T] [Ordered N] [Ordered Λ] where
  /-- Its items, closed. -/
  items : ItemSet Λ
  /-- The number of the state that each symbol leads to. -/
  transitions : SortedMap (Symbol T N) Nat
deriving DecidableEq

/-- An automaton: its states in the order of their numbers. -/
structure Machine (T N Λ : Type) [Ordered T] [Ordered N] [Ordered Λ] where
  /-- The states.  State 0 is the first one. -/
  states : List (State T N Λ)
deriving DecidableEq

namespace ItemSet

/-- The places that a dot can have: the number of a production and how many symbols of its
right-hand side are read. -/
def dots (g : Grammar T N V) : List (Nat × Nat) :=
  g.numbered.flatMap fun (p, production) =>
    (List.range (production.rhs.length + 1)).map fun dot => (p, dot)

variable {g : Grammar T N V}

/-- Items that a closed set is the closure of: those that have read something, if these
bring in all others, and else the whole set. -/
def kernelOf (rule : LookaheadRule g Λ) (items : ItemSet Λ) : ItemSet Λ :=
  let read := items.filter fun i => 0 < i.dot
  if closure rule read = items then read else items

/-- The closure of a kernel and its exits. -/
def expand (rule : LookaheadRule g Λ) (kernel : ItemSet Λ) :
    ItemSet Λ × List (Symbol T N × ItemSet Λ) :=
  let items := closure rule kernel
  (items, exits g items)

/-- The kernels of the states that a state with the given kernel has transitions to. -/
def nextKernels (rule : LookaheadRule g Λ) (kernel : ItemSet Λ) : List (ItemSet Λ) :=
  (expand rule kernel).2.map Prod.snd

/-- A bound on the items that the states built from a kernel can hold. -/
def itemBound (rule : LookaheadRule g Λ) (kernel : ItemSet Λ) : Nat :=
  kernel.size + (dots g).length * (rule.alphabet.length + kernel.size)

/-- The states built from a kernel in the order of their numbers: the kernel of each and
what it expands to. -/
def collection (rule : LookaheadRule g Λ) (kernel : ItemSet Λ) :
    List (ItemSet Λ × ItemSet Λ × List (Symbol T N × ItemSet Λ)) :=
  if kernel.isEmpty then []
  else
    survey (expand rule) (fun (_, exits) => exits.map Prod.snd)
      (Nat.pow 2 (itemBound rule kernel)) [kernelOf rule (closure rule kernel)]

/-- The kernels of the states are those that a search finds. -/
theorem map_fst_collection (rule : LookaheadRule g Λ) (kernel : ItemSet Λ) :
    (collection rule kernel).map Prod.fst =
      if kernel.isEmpty then []
      else
        reach (nextKernels rule) (Nat.pow 2 (itemBound rule kernel))
          [kernelOf rule (closure rule kernel)] := by
  unfold collection
  split
  · rfl
  · rw [survey_eq, List.map_map]
    exact List.map_id _

/-- Each kernel stands with what it expands to. -/
theorem snd_of_mem_collection {rule : LookaheadRule g Λ} {kernel : ItemSet Λ}
    {state : ItemSet Λ × ItemSet Λ × List (Symbol T N × ItemSet Λ)}
    (h : state ∈ collection rule kernel) : state.2 = expand rule state.1 := by
  unfold collection at h
  split at h
  · cases h
  · rw [survey_eq] at h
    obtain ⟨own, -, rfl⟩ := List.mem_map.mp h
    rfl

/-- Different states have different kernels. -/
theorem nodup_kernels (rule : LookaheadRule g Λ) (kernel : ItemSet Λ) :
    ((collection rule kernel).map Prod.fst).Nodup := by
  rw [map_fst_collection]
  split
  · exact .nil
  · exact nodup_reach _ _

end ItemSet

namespace Machine

variable {g : Grammar T N V}

/-- The automaton of a kernel. -/
def build (rule : LookaheadRule g Λ) (kernel : ItemSet Λ) : Machine T N Λ :=
  let states := ItemSet.collection rule kernel
  let number := Tabulated.positions (states.map Prod.fst) (ItemSet.nodup_kernels rule kernel)
  ⟨states.map fun (_, items, exits) =>
    { items
      transitions := .ofList (exits.map fun (s, next) => (s, number.get next)) }⟩

/-- The kernel of the automaton that starts with a production. -/
def startKernel (rule : LookaheadRule g Λ) (start : Nat) : ItemSet Λ :=
  .ofList [⟨start, 0, rule.initial⟩]

/-- The automaton that starts with a production. -/
def ofStart (rule : LookaheadRule g Λ) (start : Nat) : Machine T N Λ :=
  build rule (startKernel rule start)

end Machine

/-- The automaton of a start symbol, or the fault that validation finds. -/
def Grammar.machine (g : Grammar T N V) (rule : LookaheadRule g Λ) (start : N) :
    Except (GrammarError T N) (Machine T N Λ) :=
  (g.validate start).map (Machine.ofStart rule)

end BottomUp
