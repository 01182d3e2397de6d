import BottomUp.Text.Quoted

/-!
# Faults of a grammar

The reasons for which no table can be made from a grammar and a start symbol, and how
each is reported.
-/

namespace BottomUp

/-- What is wrong with a grammar. -/
inductive GrammarError (T N : Type) where
  /-- The start symbol is not a nonterminal of the grammar. -/
  | unknownStart (start : N)
  /-- The start symbol has no production. -/
  | noStartProduction (start : N)
  /-- The start symbol has several productions. -/
  | multipleStartProductions (start : N) (count : Nat)
  /-- A nonterminal that the start symbol reaches has no production. -/
  | emptyNonterminal (name : N)
  /-- The start symbol occurs on a right-hand side. -/
  | startReferenced (start : N)
  /-- A terminal is declared twice. -/
  | duplicatePrecedence (terminal : T)
  /-- A precedence is needed of a terminal that has none. -/
  | undeclaredPrecedence (terminal : T)
  /-- A precedence is needed of a production that has neither a tag nor a terminal. -/
  | noRulePrecedence (lhs : N) (production : Nat)
deriving DecidableEq

namespace GrammarError

variable {T N : Type} [Quoted T] [Quoted N]

/-- The report of a fault. -/
def message : GrammarError T N → String
  | unknownStart n => "start symbol " ++ quote n ++ " is not defined"
  | noStartProduction n => "start symbol " ++ quote n ++ " has no production"
  | multipleStartProductions n count =>
      "start symbol " ++ quote n ++ " has " ++ toString count ++
        " productions, expected exactly one"
  | emptyNonterminal n => "nonterminal " ++ quote n ++ " has no productions"
  | startReferenced n => "start symbol " ++ quote n ++ " is referenced by a right-hand side"
  | duplicatePrecedence t =>
      "terminal " ++ quote t ++ " is declared in more than one precedence group"
  | undeclaredPrecedence t => "terminal " ++ quote t ++ " has no declared precedence"
  | noRulePrecedence n p =>
      "production " ++ toString p ++ " of " ++ quote n ++
        " has no terminal to take its precedence from"

end GrammarError

end BottomUp
