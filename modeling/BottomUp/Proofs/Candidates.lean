import BottomUp.Proofs.Draft
import BottomUp.Proofs.Outline
import Mathlib.Order.Bounds.Basic
import Mathlib.Data.Nat.Find

/-!
# The candidates of a cell

What an automaton offers for a cell are its *candidates*: the shift of a transition on the
lookahead, the reductions of the completed items that expect it and that the policy does
not veto, and acceptance where the start production is completed at the end of the input.

`Candidates.Settles` says how candidates are settled, case by case and without an order of
looking at them.  The candidates of a cell are always settled somehow
(`Fit.exists_settles`), and a draft settles a cell in that way and no other
(`settle_eq_iff`).
-/

namespace BottomUp

variable {T N V Λ : Type} [Ordered T] [Ordered N] [Ordered Λ]

/-- What competes for a cell. -/
structure Candidates where
  /-- The state that a shift enters. -/
  shift? : Option Nat
  /-- The productions that can be reduced. -/
  reduces : Set Nat
  /-- The input can be accepted. -/
  accept : Prop

/-- The candidates that an automaton with a start production has for a cell. -/
def Outline.candidates (o : Outline T N) (g : Grammar T N V) (policy : Policy T) (start i : Nat)
    (a : Lookahead T) : Candidates where
  shift? := a.bind fun t => o.next? i (.terminal t)
  reduces := {p | p ≠ start ∧ o.expects i p (g.rhs p).length a ∧ policy.reduceOn p a = true}
  accept := a = none ∧ o.expects i start (g.rhs start).length none

namespace Candidates

/-- The actions that compete. -/
def actions (T : Type) (c : Candidates) : Set (Action T) :=
  {action | (∃ j, c.shift? = some j ∧ action = .shift j) ∨
    (∃ p ∈ c.reduces, action = .reduce p) ∨ c.accept ∧ action = .accept}

section

omit [Ordered T]

@[simp] theorem shift_mem_actions {c : Candidates} {j : Nat} :
    .shift j ∈ c.actions T ↔ c.shift? = some j := by
  simp [actions]

@[simp] theorem reduce_mem_actions {c : Candidates} {p : Nat} :
    .reduce p ∈ c.actions T ↔ p ∈ c.reduces := by
  simp [actions]

@[simp] theorem accept_mem_actions {c : Candidates} : .accept ∈ c.actions T ↔ c.accept := by
  simp [actions]

@[simp] theorem error_not_mem_actions {c : Candidates} {message : String}
    {conflicts : List (Action T)} {ahead : Lookahead T} :
    ¬ .error message conflicts ahead ∈ c.actions T := by
  simp [actions]

end

/-- On a terminal a shift into a state competes with the reduction of a production, the
least one that can be reduced. -/
structure Competes (c : Candidates) (a : Lookahead T) (t : T) (j p : Nat) : Prop where
  ahead : a = some t
  shift : c.shift? = some j
  reduce : IsLeast c.reduces p

end Candidates

/-- The precedence of the terminal or else that of the production is missing. -/
inductive Grammar.Unranked (g : Grammar T N V) (t : T) (p : Nat) : GrammarError T N → Prop
  /-- The terminal has none. -/
  | terminal {fault : GrammarError T N} :
      g.terminalPrecedence t = .error fault → Unranked g t p fault
  /-- The terminal has one and the production has none. -/
  | production {fault : GrammarError T N} {ofTerminal : Precedence} :
      g.terminalPrecedence t = .ok ofTerminal → g.rulePrecedence? p = some (.error fault) →
      Unranked g t p fault

/-- The terminal and the production have precedences. -/
structure Grammar.Ranked (g : Grammar T N V) (t : T) (p : Nat)
    (ofTerminal ofProduction : Precedence) : Prop where
  terminal : g.terminalPrecedence t = .ok ofTerminal
  production : g.rulePrecedence? p = some (.ok ofProduction)

open Candidates (Competes)

/-- How the candidates of a cell are settled. -/
inductive Candidates.Settles (g : Grammar T N V) (policy : Policy T) (i : Nat) (a : Lookahead T)
    (c : Candidates) : Except (CompileError T N) (Verdict T) → Prop
  /-- Acceptance stands alone. -/
  | accept : c.accept → c.reduces = ∅ → Settles g policy i a c (.ok (.action .accept))
  /-- Acceptance tolerates no reduction. -/
  | contested {p : Nat} : c.accept → IsLeast c.reduces p →
      Settles g policy i a c (.error (.conflict i a .accept (.reduce p)))
  /-- There is nothing to do. -/
  | unexpected : ¬ c.accept → c.shift? = none → c.reduces = ∅ →
      Settles g policy i a c (.ok (.action (.unexpected a)))
  /-- A shift stands alone. -/
  | shift {j : Nat} : ¬ c.accept → c.shift? = some j → c.reduces = ∅ →
      Settles g policy i a c (.ok (.action (.shift j)))
  /-- Without a shift the least production is reduced. -/
  | reduce {p : Nat} : ¬ c.accept → c.shift? = none → IsLeast c.reduces p →
      Settles g policy i a c (.ok (.action (.reduce p)))
  /-- The terminal binds tighter than the production. -/
  | tighter {t : T} {j p : Nat} {ofTerminal ofProduction : Precedence} : ¬ c.accept →
      c.Competes a t j p → g.Ranked t p ofTerminal ofProduction →
      ofProduction.level < ofTerminal.level → Settles g policy i a c (.ok (.action (.shift j)))
  /-- The production binds tighter than the terminal. -/
  | looser {t : T} {j p : Nat} {ofTerminal ofProduction : Precedence} : ¬ c.accept →
      c.Competes a t j p → g.Ranked t p ofTerminal ofProduction →
      ofTerminal.level < ofProduction.level → Settles g policy i a c (.ok (.action (.reduce p)))
  /-- On one level that associates to the left the production is reduced. -/
  | left {t : T} {j p : Nat} {ofTerminal ofProduction : Precedence} : ¬ c.accept →
      c.Competes a t j p → g.Ranked t p ofTerminal ofProduction →
      ofTerminal.level = ofProduction.level → ofTerminal.assoc = .left →
      Settles g policy i a c (.ok (.action (.reduce p)))
  /-- On one level that associates to the right the shift is taken. -/
  | right {t : T} {j p : Nat} {ofTerminal ofProduction : Precedence} : ¬ c.accept →
      c.Competes a t j p → g.Ranked t p ofTerminal ofProduction →
      ofTerminal.level = ofProduction.level → ofTerminal.assoc = .right →
      Settles g policy i a c (.ok (.action (.shift j)))
  /-- On one level that does not associate the cell is an error that keeps both. -/
  | nonAssoc {t : T} {j p : Nat} {ofTerminal ofProduction : Precedence} : ¬ c.accept →
      c.Competes a t j p → g.Ranked t p ofTerminal ofProduction →
      ofTerminal.level = ofProduction.level → ofTerminal.assoc = .nonAssoc →
      Settles g policy i a c (.ok (.action (.error
        "non-associative operator used associatively" [.shift j, .reduce p] (some t))))
  /-- For want of a precedence the shift is taken, and that is recorded. -/
  | defaulted {t : T} {j p : Nat} {fault : GrammarError T N} : ¬ c.accept →
      c.Competes a t j p → g.Unranked t p fault → policy.shiftOnUndeclared = true →
      Settles g policy i a c (.ok (.defaulted ⟨i, t, j, p⟩))
  /-- The want of a precedence is a fault. -/
  | unranked {t : T} {j p : Nat} {fault : GrammarError T N} : ¬ c.accept →
      c.Competes a t j p → g.Unranked t p fault → policy.shiftOnUndeclared = false →
      Settles g policy i a c (.error (.grammar fault))

namespace Candidates

/-- The candidates of a cell are of a kind that an automaton can have: the input is accepted
only at its end and shifts are on terminals, and the productions are those of the grammar. -/
structure Fit (g : Grammar T N V) (a : Lookahead T) (c : Candidates) : Prop where
  accept : c.accept → a = none
  shift {j : Nat} : c.shift? = some j → ∃ t, a = some t
  reduces {p : Nat} : p ∈ c.reduces → ∃ production, g.productions[p]? = some production

variable {g : Grammar T N V} {policy : Policy T} {i : Nat} {a : Lookahead T} {c : Candidates}
  {r r' : Except (CompileError T N) (Verdict T)}

omit [Ordered N] in
/-- A shift and a reduction that compete are settled. -/
theorem Competes.exists_settles {t : T} {j p : Nat} {production : Production T N V}
    (h : c.Competes a t j p) (ha : ¬ c.accept) (hp : g.productions[p]? = some production)
    (policy : Policy T) (i : Nat) : ∃ r, c.Settles g policy i a r := by
  have unranked {fault : GrammarError T N} (hu : g.Unranked t p fault) :
      ∃ r, c.Settles g policy i a r := by
    cases hd : policy.shiftOnUndeclared with
    | true => exact ⟨_, .defaulted ha h hu hd⟩
    | false => exact ⟨_, .unranked ha h hu hd⟩
  cases ht : g.terminalPrecedence t with
  | error fault => exact unranked (.terminal ht)
  | ok ofTerminal =>
      have rule : g.rulePrecedence? p = some (g.productionPrecedence p production) := by
        rw [Grammar.rulePrecedence?, hp, Option.map_some]
      cases hr : g.productionPrecedence p production with
      | error fault => exact unranked (.production ht (hr ▸ rule))
      | ok ofProduction =>
          have ranked : g.Ranked t p ofTerminal ofProduction := ⟨ht, hr ▸ rule⟩
          rcases Nat.lt_trichotomy ofProduction.level ofTerminal.level with hl | hl | hl
          · exact ⟨_, .tighter ha h ranked hl⟩
          · cases hs : ofTerminal.assoc with
            | left => exact ⟨_, .left ha h ranked hl.symm hs⟩
            | right => exact ⟨_, .right ha h ranked hl.symm hs⟩
            | nonAssoc => exact ⟨_, .nonAssoc ha h ranked hl.symm hs⟩
          · exact ⟨_, .looser ha h ranked hl⟩

omit [Ordered N] in
/-- A verdict is for a candidate, or it is an error because there is none or because two do
not associate. -/
theorem Settles.action_cases {v : Verdict T} (h : c.Settles g policy i a (.ok v)) :
    v.toAction ∈ c.actions T ∨ (v.toAction = .unexpected a ∧ c.actions T = ∅) ∨
    ∃ j p, .shift j ∈ c.actions T ∧ .reduce p ∈ c.actions T ∧
      v.toAction = .error "non-associative operator used associatively"
        [.shift j, .reduce p] a := by
  cases h with
  | accept ha _ => exact .inl (accept_mem_actions.mpr ha)
  | unexpected ha hs hr =>
      refine .inr (.inl ⟨rfl, Set.eq_empty_iff_forall_notMem.mpr fun action h => ?_⟩)
      cases action with
      | shift j => cases hs.symm.trans (shift_mem_actions.mp h)
      | reduce p => exact absurd (reduce_mem_actions.mp h) (hr ▸ Set.notMem_empty p)
      | accept => exact ha (accept_mem_actions.mp h)
      | error message conflicts ahead => exact error_not_mem_actions h
  | shift _ hs _ => exact .inl (shift_mem_actions.mpr hs)
  | reduce _ _ hp => exact .inl (reduce_mem_actions.mpr hp.1)
  | tighter _ hc _ _ => exact .inl (shift_mem_actions.mpr hc.shift)
  | looser _ hc _ _ => exact .inl (reduce_mem_actions.mpr hc.reduce.1)
  | left _ hc _ _ _ => exact .inl (reduce_mem_actions.mpr hc.reduce.1)
  | right _ hc _ _ _ => exact .inl (shift_mem_actions.mpr hc.shift)
  | @nonAssoc t j p _ _ _ hc _ _ _ =>
      refine .inr (.inr ⟨j, p, shift_mem_actions.mpr hc.shift,
        reduce_mem_actions.mpr hc.reduce.1, ?_⟩)
      rw [hc.ahead]
      rfl
  | defaulted _ hc _ _ => exact .inl (shift_mem_actions.mpr hc.shift)

open Classical in
omit [Ordered N] in
/-- The candidates of a cell are settled somehow. -/
theorem Fit.exists_settles (h : c.Fit g a) (policy : Policy T) (i : Nat) :
    ∃ r, c.Settles g policy i a r := by
  have least (hr : c.reduces ≠ ∅) : ∃ p, IsLeast c.reduces p := by
    have hr := Set.nonempty_iff_ne_empty.mpr hr
    exact ⟨Nat.find hr, Nat.find_spec hr, fun p hp => Nat.find_min' hr hp⟩
  by_cases ha : c.accept
  · by_cases hr : c.reduces = ∅
    · exact ⟨_, .accept ha hr⟩
    · obtain ⟨p, hp⟩ := least hr
      exact ⟨_, .contested ha hp⟩
  · cases hs : c.shift? with
    | none =>
        by_cases hr : c.reduces = ∅
        · exact ⟨_, .unexpected ha hs hr⟩
        · obtain ⟨p, hp⟩ := least hr
          exact ⟨_, .reduce ha hs hp⟩
    | some j =>
        by_cases hr : c.reduces = ∅
        · exact ⟨_, .shift ha hs hr⟩
        · obtain ⟨p, hp⟩ := least hr
          obtain ⟨t, ht⟩ := h.shift hs
          obtain ⟨production, hg⟩ := h.reduces hp.1
          exact Competes.exists_settles ⟨ht, hs, hp⟩ ha hg policy i

end Candidates

/-! ## A draft settles a cell that way -/

/-- The least member of a set of numbers is listed first. -/
theorem SortedSet.exists_toList_of_isLeast {s : SortedSet Nat} {p : Nat}
    (h : IsLeast {q | q ∈ s} p) : ∃ rest, s.toList = p :: rest := by
  cases hs : s.toList with
  | nil =>
      have hp : p ∈ s.toList := SortedSet.mem_toList.mpr h.1
      rw [hs] at hp
      exact absurd hp List.not_mem_nil
  | cons q rest =>
      have sorted := s.sorted
      rw [hs] at sorted
      have hq : q ∈ s := SortedSet.mem_toList.mp (hs ▸ List.mem_cons_self)
      have hp : p ∈ q :: rest := hs ▸ SortedSet.mem_toList.mpr h.1
      cases hp with
      | head => exact ⟨rest, rfl⟩
      | tail _ hp =>
          have before := Nat.compare_eq_lt.mp ((List.pairwise_cons.mp sorted).1 p hp)
          exact absurd (h.2 hq) (Nat.not_le_of_lt before)

/-- A cell is offered just these candidates. -/
structure Cell.Offers (c : Candidates) (cell : Cell) : Prop where
  shift : cell.shift? = c.shift?
  reduces : {p | p ∈ cell.reduces} = c.reduces
  accept : cell.accept = true ↔ c.accept

namespace Cell.Offers

variable {c : Candidates} {cell : Cell} {p : Nat}

theorem toList_of_isLeast (h : cell.Offers c) (hp : IsLeast c.reduces p) :
    ∃ rest, cell.reduces.toList = p :: rest :=
  SortedSet.exists_toList_of_isLeast (h.reduces ▸ hp)

theorem toList_of_empty (h : cell.Offers c) (hr : c.reduces = ∅) :
    cell.reduces.toList = [] := by
  refine List.eq_nil_iff_forall_not_mem.mpr fun p hp => ?_
  have : p ∈ c.reduces := h.reduces ▸ SortedSet.mem_toList.mp hp
  rw [hr] at this
  exact this

theorem accept_eq_false (h : cell.Offers c) (ha : ¬ c.accept) : cell.accept = false :=
  Bool.eq_false_iff.mpr fun hc => ha (h.accept.mp hc)

end Cell.Offers

namespace Draft

variable {d : Draft T N V} {policy : Policy T} {i : Nat} {a : Lookahead T} {c : Candidates}
  {cell : Cell} {t : T} {j p : Nat}

/-- A competition is settled as a pair. -/
theorem settle_of_competes (h : cell.Offers c) (ha : ¬ c.accept) (hc : c.Competes a t j p) :
    d.settle policy i a cell = d.settlePair policy i t j p := by
  obtain ⟨rest, hl⟩ := h.toList_of_isLeast hc.reduce
  simp [settle, h.accept_eq_false ha, h.shift, hc.shift, hl, hc.ahead]

theorem settlePair_of_ranked {ofTerminal ofProduction : Precedence}
    (h : d.grammar.Ranked t p ofTerminal ofProduction) :
    d.settlePair policy i t j p = .ok (.action (arbitrate t j p ofTerminal ofProduction)) := by
  obtain ⟨ht, hp⟩ := h
  obtain ⟨production, hg, hp⟩ := Option.map_eq_some_iff.mp hp
  simp [settlePair, hg, contest, ht, hp, bind, Except.bind, pure, Except.pure]

theorem settlePair_of_unranked {fault : GrammarError T N} (h : d.grammar.Unranked t p fault)
    (hg : ∃ production, d.grammar.productions[p]? = some production) :
    d.settlePair policy i t j p =
      if policy.shiftOnUndeclared then .ok (.defaulted ⟨i, t, j, p⟩)
      else .error (.grammar fault) := by
  obtain ⟨production, hg⟩ := hg
  cases h with
  | terminal ht => simp [settlePair, hg, contest, ht, bind, Except.bind]
  | production ht hp =>
      rw [Grammar.rulePrecedence?, hg, Option.map_some] at hp
      have hp := Option.some.inj hp
      simp [settlePair, hg, contest, ht, hp, bind, Except.bind]

/-- The draft of a grammar settles a cell as its candidates are settled. -/
theorem settle_eq_of_settles {r : Except (CompileError T N) (Verdict T)} (h : cell.Offers c)
    (hf : c.Fit d.grammar a) (hs : c.Settles d.grammar policy i a r) :
    d.settle policy i a cell = r := by
  have alone (ha : c.accept) : c.shift? = none := by
    cases hn : c.shift? with
    | none => rfl
    | some j =>
        obtain ⟨t, ht⟩ := hf.shift hn
        rw [hf.accept ha] at ht
        cases ht
  cases hs with
  | accept ha hr =>
      simp [settle, h.accept.mpr ha, h.shift, alone ha, h.toList_of_empty hr]
  | contested ha hp =>
      obtain ⟨rest, hl⟩ := h.toList_of_isLeast hp
      simp [settle, h.accept.mpr ha, h.shift, alone ha, hl]
  | unexpected ha hn hr =>
      simp [settle, h.accept_eq_false ha, h.shift, hn, h.toList_of_empty hr]
  | shift ha hn hr =>
      simp [settle, h.accept_eq_false ha, h.shift, hn, h.toList_of_empty hr]
  | reduce ha hn hp =>
      obtain ⟨rest, hl⟩ := h.toList_of_isLeast hp
      simp [settle, h.accept_eq_false ha, h.shift, hn, hl]
  | tighter ha hc hr hl =>
      rw [settle_of_competes h ha hc, settlePair_of_ranked hr, arbitrate, if_pos hl]
  | looser ha hc hr hl =>
      rw [settle_of_competes h ha hc, settlePair_of_ranked hr, arbitrate,
        if_neg (Nat.lt_asymm hl), if_pos hl]
  | left ha hc hr hl hs =>
      rw [settle_of_competes h ha hc, settlePair_of_ranked hr]
      simp [arbitrate, hl, hs]
  | right ha hc hr hl hs =>
      rw [settle_of_competes h ha hc, settlePair_of_ranked hr]
      simp [arbitrate, hl, hs]
  | nonAssoc ha hc hr hl hs =>
      rw [settle_of_competes h ha hc, settlePair_of_ranked hr]
      simp [arbitrate, hl, hs]
  | defaulted ha hc hu hd =>
      rw [settle_of_competes h ha hc, settlePair_of_unranked hu (hf.reduces hc.reduce.1), if_pos hd]
  | unranked ha hc hu hd =>
      rw [settle_of_competes h ha hc, settlePair_of_unranked hu (hf.reduces hc.reduce.1), hd]
      rfl

/-- A verdict of a draft on a cell is one on its candidates. -/
theorem settle_eq_iff {r : Except (CompileError T N) (Verdict T)} (h : cell.Offers c)
    (hf : c.Fit d.grammar a) :
    d.settle policy i a cell = r ↔ c.Settles d.grammar policy i a r := by
  refine ⟨?_, settle_eq_of_settles h hf⟩
  intro hr
  obtain ⟨r', hs⟩ := hf.exists_settles policy i
  rwa [← hr, settle_eq_of_settles h hf hs]

end Draft

end BottomUp
