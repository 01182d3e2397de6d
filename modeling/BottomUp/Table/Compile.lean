import BottomUp.Table.Settle
import BottomUp.Follow

/-!
# Tables of grammars

There are two ways from a grammar to its table.  Both build an automaton and offer a shift
for each transition on a terminal and a reduction for each completed item.  They differ in
the lookaheads for which a reduction is offered.

* `Method.slr` takes the LR(0) automaton and offers a reduction on everything that can
  follow the left-hand side anywhere.
* `Method.lr1` takes the LR(1) automaton and offers a reduction on the lookahead of the
  completed item.  Its automaton is larger and its reductions are fewer.
-/

namespace BottomUp

/-- How a table is made. -/
inductive Method where
  /-- From LR(0) items and FOLLOW sets. -/
  | slr
  /-- From LR(1) items. -/
  | lr1
deriving DecidableEq, Repr

namespace Machine

variable {T N V Λ : Type} [Ordered T] [Ordered N] [Ordered Λ]

/-- The reductions that the completed items of an automaton offer, given the lookaheads on
which an item is reduced. -/
def reductions (g : Grammar T N V) (machine : Machine T N Λ)
    (aheads : Item Λ → List (Lookahead T)) : List (Offer T) :=
  machine.states.zipIdx.flatMap fun (state, i) =>
    (state.items.toList.filter (Item.isComplete g)).flatMap fun item =>
      (aheads item).map fun ahead => .reduce i ahead item.production

/-- The draft that holds all transitions and reductions of an automaton. -/
def draft (g : Grammar T N V) (policy : Policy T) (start : Nat) (machine : Machine T N Λ)
    (aheads : Item Λ → List (Lookahead T)) : Except (CompileError T N) (Draft T N V) := do
  let blank := Draft.blank g start machine.states.length
  let connected ← machine.transitions.foldlM (fun d t => d.connect policy t) blank
  (machine.reductions g aheads).foldlM (fun d o => d.offer policy o) connected

/-- Make the table of an automaton. -/
def compile (g : Grammar T N V) (policy : Policy T) (kind : String) (start : Nat)
    (machine : Machine T N Λ) (aheads : Item Λ → List (Lookahead T)) : Compilation T N :=
  let built := Note.automaton kind machine.states.length
  match machine.draft g policy start aheads with
  | .error e => ⟨.error e, [], [built]⟩
  | .ok d =>
      let settled := d.finish policy
      { settled with notes := built :: settled.notes }

end Machine

namespace Grammar

variable {T N V : Type} [Ordered T] [Ordered N]

/-- The lookaheads on which an LR(0) item is reduced: what can follow its left-hand
side. -/
def followers (g : Grammar T N V) (follow : FollowSets T N) (item : Lr0Item) :
    List (Lookahead T) :=
  match g.productions[item.production]? with
  | some p => follow.lookaheads p.lhs
  | none => []

/-- Make the table of a start symbol, or report why there is none. -/
def compile (g : Grammar T N V) (method : Method) (start : N) (policy : Policy T) :
    Compilation T N :=
  match g.validate start with
  | .error fault => ⟨.error (.grammar fault), [], []⟩
  | .ok p =>
      match method with
      | .slr =>
          let follow := FollowSets.of g start
          (Machine.ofStart (.lr0 g) p).compile g policy "LR(0)" p (g.followers follow)
      | .lr1 =>
          (Machine.ofStart (.lr1 g) p).compile g policy "LR(1)" p fun item => [item.ahead]

end Grammar

end BottomUp
