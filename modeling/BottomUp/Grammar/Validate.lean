import BottomUp.Grammar.Basic
import BottomUp.Grammar.Error
import BottomUp.Search

/-!
# Validation

A grammar is fit for a table from a start symbol when that symbol has exactly one
production and occurs on no right-hand side, every nonterminal it reaches has a
production, and no operator is declared twice.  `validate` gives the start production or
the first fault, in the order in which `GrammarError` lists them.

Precedences are looked up when two actions compete.  A terminal has the precedence it is
declared with, and a production that of its tag or else of its last terminal.
-/

namespace BottomUp

namespace Grammar

variable {T N V : Type} [Ordered T] [Ordered N]

/-! ## Reachable nonterminals -/

/-- The nonterminals on the right-hand sides of a nonterminal, in the order of its
alternatives. -/
def successors (g : Grammar T N V) (n : N) : List N :=
  (g.alternatives n).flatMap fun p => (g.rhs p).filterMap Symbol.nonterminal?

/-- The nonterminals that occur in what the start symbol derives, itself included.  An
unknown start symbol reaches nothing. -/
def reachable (g : Grammar T N V) (start : N) : SortedSet N :=
  .ofList <| reach g.successors g.nonterminals.length <|
    if start ∈ g.nonterminals then [start] else []

/-! ## The start production -/

/-- Does the symbol occur on a right-hand side? -/
def isReferenced (g : Grammar T N V) (n : N) : Bool :=
  g.productions.any fun p => decide (Symbol.nonterminal n ∈ p.rhs)

/-- The first listed nonterminal that the start symbol reaches and that has no
production. -/
def emptyReachable? (g : Grammar T N V) (start : N) : Option N :=
  let reached := g.reachable start
  g.nonterminals.find? fun n => (g.alternatives n).isEmpty && decide (n ∈ reached)

/-- The start production, if the grammar is fit for a table from this start symbol, and
otherwise its first fault. -/
def validate (g : Grammar T N V) (start : N) : Except (GrammarError T N) Nat :=
  if start ∈ g.nonterminals then
    match g.alternatives start with
    | [] => .error (.noStartProduction start)
    | [p] =>
        match g.emptyReachable? start with
        | some n => .error (.emptyNonterminal n)
        | none =>
            if g.isReferenced start then .error (.startReferenced start)
            else
              match g.precedence.duplicate? with
              | some t => .error (.duplicatePrecedence t)
              | none => .ok p
    | several => .error (.multipleStartProductions start several.length)
  else .error (.unknownStart start)

/-! ## Precedences -/

/-- The declared precedence of a terminal. -/
def terminalPrecedence (g : Grammar T N V) (t : T) : Except (GrammarError T N) Precedence :=
  match g.precedence.lookup t with
  | some precedence => .ok precedence
  | none => .error (.undeclaredPrecedence t)

/-- The precedence of a production with its number: that of its tag or else of its last
terminal. -/
def productionPrecedence (g : Grammar T N V) (p : Nat) (production : Production T N V) :
    Except (GrammarError T N) Precedence :=
  match production.ranking? with
  | some t => g.terminalPrecedence t
  | none => .error (.noRulePrecedence production.lhs p)

/-- The precedence of the production with a number, if there is one. -/
def rulePrecedence? (g : Grammar T N V) (p : Nat) : Option (Except (GrammarError T N) Precedence) :=
  g.productions[p]?.map (g.productionPrecedence p)

end Grammar

end BottomUp
