import BottomUp.Grammar.Basic

/-!
# Grammars in words

How a production and a whole grammar are written in messages and logs.  A production is
its left-hand side, an arrow, its symbols and, if it has one, its tag.
-/

namespace BottomUp

variable {T N V : Type} [Quoted T] [Quoted N]

instance : Quoted (Production T N V) where
  quote p :=
    quote p.lhs ++ " →" ++ String.join (p.rhs.map fun s => " " ++ quote s) ++
      match p.tag with
      | some t => " %prec " ++ quote t
      | none => ""

instance : Quoted (PrecedenceGroup T) where
  quote group := "(" ++ quote group.assoc ++ ", " ++ quote group.members ++ ")"

instance : Quoted (PrecedenceTable T) where
  quote table := "PrecedenceTable \x7b groups: " ++ quote table.groups ++ " \x7d"

instance : Quoted (Grammar T N V) where
  quote g :=
    "Grammar \x7b productions: " ++ quote g.productions ++ ", precedence: " ++
      quote g.precedence ++ " \x7d"

end BottomUp
