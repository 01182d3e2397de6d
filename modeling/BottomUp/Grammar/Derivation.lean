import BottomUp.Grammar.Basic

/-!
# Derivations

A grammar rewrites a symbol string by putting a right-hand side in the place of its
left-hand side.  What it rewrites a string to in any number of steps it *derives* from the
string.  A *sentence* is a terminal string that it derives from the start symbol.

A *chain* from the start symbol goes down one occurrence of a nonterminal at a time.  It
fixes what stands to the left of the last nonterminal and what to the right, before any of
that is rewritten.
-/

namespace BottomUp.Grammar

variable {T N V : Type}

/-- One nonterminal of a string is replaced by one of its right-hand sides. -/
inductive Rewrites (g : Grammar T N V) : List (Symbol T N) → List (Symbol T N) → Prop
  /-- A production is applied between a left and a right part. -/
  | apply {p : Production T N V} (left right : List (Symbol T N)) : p ∈ g.productions →
      Rewrites g (left ++ .nonterminal p.lhs :: right) (left ++ p.rhs ++ right)

/-- A string is rewritten to another in any number of steps. -/
inductive Derives (g : Grammar T N V) (a : List (Symbol T N)) : List (Symbol T N) → Prop
  /-- In no step a string stays as it is. -/
  | refl : Derives g a a
  /-- One step more. -/
  | tail {b c : List (Symbol T N)} : Derives g a b → Rewrites g b c → Derives g a c

/-- The start symbol derives a string of terminals. -/
def IsSentence (g : Grammar T N V) (start : N) (w : List T) : Prop :=
  g.Derives [.nonterminal start] (w.map .terminal)

/-- A way down from the start symbol to a nonterminal that leaves one string to its left
and another one to its right. -/
inductive Chain (g : Grammar T N V) (start : N) : List (Symbol T N) → N → List (Symbol T N) → Prop
  /-- The start symbol stands alone. -/
  | start : Chain g start [] start []
  /-- The last nonterminal gives way to one on a right-hand side of its own. -/
  | down {left right before after : List (Symbol T N)} {p : Production T N V} {n : N} :
      Chain g start left p.lhs right → p ∈ g.productions →
      p.rhs = before ++ .nonterminal n :: after →
      Chain g start (left ++ before) n (after ++ right)

variable {g : Grammar T N V} {a b c d : List (Symbol T N)}

namespace Derives

theorem trans (h : g.Derives a b) (h' : g.Derives b c) : g.Derives a c := by
  induction h' with
  | refl => exact h
  | tail _ step ih => exact ih.tail step

/-- A left-hand side derives its right-hand side. -/
theorem of_production {p : Production T N V} (h : p ∈ g.productions) :
    g.Derives [.nonterminal p.lhs] p.rhs := by
  simpa using Derives.refl.tail (Rewrites.apply [] [] h)

/-- Derivations go on between a left and a right part. -/
theorem between (left right : List (Symbol T N)) (h : g.Derives a b) :
    g.Derives (left ++ a ++ right) (left ++ b ++ right) := by
  induction h with
  | refl => exact .refl
  | tail _ step ih =>
      cases step with
      | apply l r hp =>
          refine ih.tail ?_
          have := Rewrites.apply (left ++ l) (r ++ right) hp
          simpa only [List.append_assoc, List.cons_append] using this

/-- Two strings derive side by side. -/
theorem append (h : g.Derives a b) (h' : g.Derives c d) : g.Derives (a ++ c) (b ++ d) := by
  have first := h.between [] c
  have second := h'.between b []
  simp only [List.nil_append, List.append_nil] at first second
  exact first.trans second

end Derives

/-- What a chain leaves to both sides stands around its last nonterminal in a string that
the start symbol derives. -/
theorem Chain.derives {start n : N} (h : g.Chain start a n b) :
    g.Derives [.nonterminal start] (a ++ .nonterminal n :: b) := by
  induction h with
  | start => exact .refl
  | @down left right before after p n _ hp hr ih =>
      refine ih.trans ?_
      have := (Derives.of_production hp).between left right
      simpa [hr] using this

end BottomUp.Grammar
