import BottomUp.Proofs.Streaming
import BottomUp.Proofs.Termination

/-!
# Productions with terminals

If every production but the first has a terminal on its right-hand side, each reduction takes
a token off the stack for good.  A token is shifted once and taken off once, so a parse takes
at most two steps for each entry of its stream, and one more to end
(`exists_parse_of_consuming`).  That holds of every stream, sentence or not, and whatever the
table does about conflicts.
-/

namespace BottomUp

variable {K T N V E : Type}

/-- Every production but one has a terminal on its right-hand side. -/
def Grammar.Consuming (g : Grammar T N V) (start : Nat) : Prop :=
  ∀ (p : Nat) (production : Production T N V), g.productions[p]? = some production → p ≠ start →
    ∃ t, Symbol.terminal t ∈ production.rhs

/-- The number of terminals in a string. -/
def Symbol.countTerminals (symbols : List (Symbol T N)) : Nat :=
  (symbols.filterMap Symbol.terminal?).length

namespace Symbol

variable {a b : List (Symbol T N)} {t : T} {n : N}

theorem countTerminals_append : countTerminals (a ++ b) = countTerminals a + countTerminals b := by
  simp [countTerminals]

theorem countTerminals_terminal : countTerminals [(.terminal t : Symbol T N)] = 1 := rfl

theorem countTerminals_nonterminal : countTerminals [(.nonterminal n : Symbol T N)] = 0 := rfl

theorem countTerminals_pos (h : .terminal t ∈ a) : 0 < countTerminals a :=
  List.length_pos_of_mem (List.mem_filterMap.mpr ⟨_, h, rfl⟩)

end Symbol

open BottomUp.Symbol

namespace Parser

variable [Ordered T] [Ordered N] {m : Parser K T N V} {o : Outline T N} {start i : Nat}
  {γ : List (Symbol T N)} {c d : Configuration K V E}

/-- Twice what is to be shifted, and the tokens on the stack, become fewer with every step. -/
theorem budget_of_step (ho : o.Lawful m.grammar start) (hd : o.Drives m.grammar start m.table)
    (hg : m.grammar.Consuming start) (hc : o.Carries γ i c.stack)
    (hs : m.step c = .continues d) :
    ∃ δ j, o.Carries δ j d.stack ∧
      2 * d.remaining + countTerminals δ < 2 * c.remaining + countTerminals γ := by
  rcases shifts_or_reduces hs with ⟨j, ha, hp⟩ | ⟨p, ha, hr⟩
  · rw [action?, hc.top_eq] at ha
    obtain ⟨t, ht, hn⟩ := hd.shift ha
    obtain ⟨k, token, _⟩ := Option.map_eq_some_iff.mp ht
    obtain ⟨stack, _, remaining⟩ := of_pull_continues hp
    have pushed : o.Carries (γ ++ [.terminal t]) j d.stack := by
      rw [stack]
      exact hc.push hn
    have fewer : d.remaining + 1 = c.remaining := by
      rw [remaining, Configuration.remaining, token]
      rfl
    refine ⟨_, j, pushed, ?_⟩
    rw [countTerminals_append, countTerminals_terminal]
    omega
  · rw [action?, hc.top_eq] at ha
    obtain ⟨hne, he⟩ := hd.reduce ha
    obtain ⟨production, left, k, j, hp, rfl, below, hn, reduced⟩ :=
      exists_reduce ho hd hc hne (ho.holds_of_expects he)
    obtain ⟨t, ht⟩ := hg p production hp hne
    cases hr.symm.trans reduced
    refine ⟨_, j, below.push hn, ?_⟩
    have fewer := countTerminals_pos ht
    rw [countTerminals_append, countTerminals_append, countTerminals_nonterminal]
    show 2 * c.remaining + _ < _
    omega

/-- More steps than that are enough. -/
theorem exists_run_of_consuming (ho : o.Lawful m.grammar start)
    (hd : o.Drives m.grammar start m.table) (hg : m.grammar.Consuming start) :
    ∀ {steps : Nat} {γ : List (Symbol T N)} {i : Nat} {c : Configuration K V E},
      o.Carries γ i c.stack → 2 * c.remaining + countTerminals γ < steps →
        ∃ ending, m.run steps (.continues c) = some ending
  | 0, _, _, _, _, h => absurd h (Nat.not_lt_zero _)
  | steps + 1, γ, i, c, hc, h => by
      rw [run]
      cases hs : m.step c with
      | ends how d => exact ⟨_, run_ends how steps⟩
      | continues d =>
          obtain ⟨δ, j, hd', fewer⟩ := budget_of_step ho hd hg hc hs
          exact exists_run_of_consuming ho hd hg hd' (by omega)

/-- A parse takes at most two steps for each entry of its stream and one more. -/
theorem exists_parse_of_consuming (ho : o.Lawful m.grammar start)
    (hd : o.Drives m.grammar start m.table) (hg : m.grammar.Consuming start)
    (input : List (Except E K)) {steps : Nat} (hn : 2 * input.length < steps) :
    ∃ ending, m.parse steps input = some ending := by
  rw [parse]
  cases hb : m.begin input with
  | ends how c => exact ⟨_, run_ends how steps⟩
  | continues c =>
      obtain ⟨stack, _, remaining⟩ := of_pull_continues hb
      have carries : o.Carries [] 0 c.stack := by
        rw [stack, hd.start_eq]
        exact .bottom
      have empty : countTerminals ([] : List (Symbol T N)) = 0 := rfl
      have all : c.remaining = input.length := remaining
      exact exists_run_of_consuming ho hd hg carries (by omega)

end Parser

end BottomUp
