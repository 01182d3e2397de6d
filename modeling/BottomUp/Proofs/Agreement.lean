import BottomUp.Proofs.Simulation

/-!
# The two methods agree

An LR(1) automaton has more states than the LR(0) automaton, but no more paths.  A string
that labels a path of the former labels one of the latter.  Without their lookaheads the
items of the LR(1) state are items of the LR(0) state, and the lookaheads follow their
left-hand sides (`Machine.exists_follow?_lr0`).  There may be fewer items in the LR(1)
state, since an item is not demanded where no lookahead can follow.

Hence the LR(1) outline refines the outline by which SLR reduces.  If the latter is
deterministic so is the former, and a parser with the SLR table makes the moves of a parser
with the LR(1) table.  It may go on reducing where that stops.  Both accept the frontiers of
the same trees (`methods_agree`).
-/

namespace BottomUp

variable {K T N V E : Type} [Ordered T] [Ordered N] {g : Grammar T N V} {start : N} {p : Nat}

/-! ## LR(1) items over LR(0) items -/

/-- The item without its lookahead. -/
def Item.core (item : Lr1Item T) : Lr0Item := ⟨item.production, item.dot, ()⟩

omit [Ordered T] [Ordered N] in
theorem Item.next?_core (item : Lr1Item T) : item.core.next? g = item.next? g :=
  rfl

theorem Item.followers_core {item : Lr1Item T} {production : Production T N V}
    (h : g.productions[item.production]? = some production) :
    g.followers (.of g start) item.core = (FollowSets.of g start).lookaheads production.lhs :=
  LookaheadRule.followers_of_getElem? h

namespace ItemSet

/-- The cores of the items are among the others, and the lookaheads follow the left-hand
sides. -/
def Covered (g : Grammar T N V) (start : N) (items : ItemSet (Lookahead T))
    (cores : ItemSet Unit) : Prop :=
  ∀ item ∈ items, item.core ∈ cores ∧ item.ahead ∈ g.followers (.of g start) item.core

variable {items : ItemSet (Lookahead T)} {cores : ItemSet Unit}

theorem Covered.closure (h : Covered g start items cores) :
    Covered g start (closure (.lr1 g) items) (closure (.lr0 g) cores) := by
  intro item hi
  replace hi := (mem_closure_iff LookaheadRule.confined_lr1).mp hi
  induction hi with
  | given hi =>
      obtain ⟨hc, ha⟩ := h _ hi
      exact ⟨mem_closure_of_mem LookaheadRule.confined_lr0 hc, ha⟩
  | @meet item n rest b q _ hr hb hq ih =>
      obtain ⟨hc, ha⟩ := ih
      obtain ⟨production, hp, hrhs⟩ := Item.exists_of_rest hr
      obtain ⟨next, hnext, rfl⟩ := Grammar.mem_alternatives.mp hq
      rw [Item.followers_core hp] at ha
      refine ⟨mem_closure_of_rest LookaheadRule.confined_lr0 hc hr List.mem_cons_self hq, ?_⟩
      rw [Item.followers_core hnext]
      exact FollowSets.mem_lookaheads_of_mem (List.mem_of_getElem? hp) hrhs ha
        (SortedSet.mem_toList.mp hb)

theorem Covered.goto (h : Covered g start items cores) (s : Symbol T N) :
    Covered g start (goto (.lr1 g) items s) (goto (.lr0 g) cores s) := by
  refine Covered.closure fun item hi => ?_
  obtain ⟨before, hb, hs, rfl⟩ := mem_advancePast.mp hi
  obtain ⟨hc, ha⟩ := h before hb
  exact ⟨mem_advancePast.mpr ⟨before.core, hc, hs, rfl⟩, ha⟩

end ItemSet

/-! ## Paths of both automata -/

namespace Machine

open ItemSet

/-- A path of the LR(1) automaton is a path of the LR(0) automaton, over the states of which
its states lie. -/
theorem exists_follow?_lr0 (hs : g.Starts start p) (γ : List (Symbol T N)) :
    ∀ {i : Nat}, (ofStart (.lr1 g) p).follow? 0 γ = some i →
      ∃ j, (ofStart (.lr0 g) p).follow? 0 γ = some j ∧
        Covered g start ((ofStart (.lr1 g) p).items i) ((ofStart (.lr0 g) p).items j) := by
  have confined := LookaheadRule.confined_lr1 (g := g)
  have confined' := LookaheadRule.confined_lr0 (g := g)
  induction γ using List.reverseRecOn with
  | nil =>
      intro i h
      cases h
      refine ⟨0, rfl, ?_⟩
      rw [ofStart, ofStart, items_zero confined isEmpty_startKernel,
        items_zero confined' isEmpty_startKernel]
      refine Covered.closure fun item hi => ?_
      obtain rfl := mem_startKernel.mp hi
      obtain ⟨production, hp, rfl⟩ := hs.exists_production
      refine ⟨mem_startKernel.mpr rfl, ?_⟩
      rw [Item.followers_core hp]
      exact FollowSets.none_mem_lookaheads_start hs.listed
  | append_singleton γ s ih =>
      intro i h
      obtain ⟨i', hi', hn⟩ := follow?_concat.mp h
      obtain ⟨j', hj', covered⟩ := ih hi'
      obtain ⟨item, hi, hnext⟩ := exists_mem_of_next? confined isEmpty_startKernel hn
      obtain ⟨j, hj⟩ := exists_next? (covered item hi).1 ((Item.next?_core item).trans hnext)
      refine ⟨j, follow?_concat.mpr ⟨j', hj', hj⟩, ?_⟩
      rw [ofStart, items_of_next? confined isEmpty_startKernel hn, ofStart,
        items_of_next? confined' isEmpty_startKernel hj]
      exact covered.goto s

end Machine

namespace Grammar

theorem refines_slr (hs : g.Starts start p) :
    (g.outline .lr1 start p).Refines (g.outline .slr start p) := by
  intro γ i hi
  obtain ⟨j, hj, covered⟩ := Machine.exists_follow?_lr0 hs γ (Outline.spells_outline.mp hi)
  refine ⟨j, Outline.spells_outline.mpr hj, fun q d a he => ?_⟩
  obtain ⟨item, hi, rfl, rfl, ha⟩ := Machine.expects_outline.mp he
  obtain ⟨hc, hf⟩ := covered item hi
  rw [List.mem_singleton.mp ha]
  exact Machine.expects_outline.mpr ⟨item.core, hc, rfl, rfl, hf⟩

/-! ## Agreement -/

/-- For every grammar that is fit for a table: the strings that label paths of the LR(1)
automaton label paths of the LR(0) automaton to states that hold the same items without
their lookaheads, and the lookaheads follow the left-hand sides.  If nothing is vetoed and no
SLR cell has two candidates, then no LR(1) cell has, there are both tables, the moves with
the LR(1) table are the first moves with the SLR table whatever is parsed, and both accept
the same inputs with the same values. -/
theorem methods_agree (hv : g.validate start = .ok p) :
    (∃ slr lr1, g.machine (.lr0 g) start = .ok slr ∧ g.machine (.lr1 g) start = .ok lr1 ∧
      ∀ γ i, lr1.follow? 0 γ = some i → ∃ j, slr.follow? 0 γ = some j ∧
        ∀ item ∈ lr1.items i, ⟨item.production, item.dot, ()⟩ ∈ slr.items j ∧
          ∃ production, g.productions[item.production]? = some production ∧
            item.ahead ∈ (FollowSets.of g start).lookaheads production.lhs) ∧
    ∀ policy : Policy T, (∀ q a, policy.reduceOn q a = true) →
      (g.outline .slr start p).Deterministic g policy p →
      (g.outline .lr1 start p).Deterministic g policy p ∧
      ∃ slr lr1, (g.compile .slr start policy).table = .ok slr ∧
        (g.compile .lr1 start policy).table = .ok lr1 ∧
        ∀ (r : Reader K T V) (input : List (Except E K)),
          (∀ steps, (⟨g, lr1, r⟩ : Parser K T N V).moves steps input <+:
            (⟨g, slr, r⟩ : Parser K T N V).moves steps input) ∧
          ∀ v, (∃ steps c, (⟨g, slr, r⟩ : Parser K T N V).parse steps input =
              some (.accepted v, c)) ↔
            ∃ steps c, (⟨g, lr1, r⟩ : Parser K T N V).parse steps input =
              some (.accepted v, c) := by
  have hs := starts_of_validate hv
  refine ⟨⟨Machine.ofStart (.lr0 g) p, Machine.ofStart (.lr1 g) p, ?_, ?_, ?_⟩, ?_⟩
  · rw [machine, hv]
    rfl
  · rw [machine, hv]
    rfl
  · intro γ i hi
    obtain ⟨j, hj, covered⟩ := Machine.exists_follow?_lr0 hs γ hi
    refine ⟨j, hj, fun item hm => ?_⟩
    obtain ⟨hc, hf⟩ := covered item hm
    obtain ⟨production, hp, _⟩ :=
      Machine.exists_production_of_mem LookaheadRule.confined_lr1 hs hm
    rw [Item.followers_core hp] at hf
    exact ⟨hc, production, hp, hf⟩
  · intro policy permits single
    have refines := refines_slr hs
    have lawful := lawful_outline hs .lr1
    have single' := refines.deterministic lawful (fun _ => exists_spells_outline) single
    obtain ⟨slr, _, hslr, resolved, _⟩ := exists_table_of_deterministic hv single
    obtain ⟨lr1, _, hlr1, resolved', _⟩ := exists_table_of_deterministic hv single'
    refine ⟨single', slr, lr1, hslr, hlr1, fun r input => ?_⟩
    have follows : (⟨g, slr, r⟩ : Parser K T N V).Follows (g.outline .slr start p) policy p :=
      ⟨lawful_outline hs .slr, resolved.drives, permits,
        resolved.action_eq (lawful_outline hs .slr) single⟩
    have follows' : (⟨g, lr1, r⟩ : Parser K T N V).Follows (g.outline .lr1 start p) policy p :=
      ⟨lawful, resolved'.drives, permits, resolved'.action_eq lawful single'⟩
    constructor
    · have shadows : (⟨g, slr, r⟩ : Parser K T N V).Shadows ⟨g, lr1, r⟩ (g.outline .slr start p)
          (g.outline .lr1 start p) policy p := ⟨rfl, lawful, resolved'.drives, refines, follows⟩
      exact shadows.moves_prefix rfl
    · intro v
      exact (follows.accepts_iff hs).trans (follows'.accepts_iff hs).symm

/-- Lists are read alike by both methods. -/
theorem methods_agree_lists : lists.validate 0 = .ok 0 ∧
    (lists.outline .slr 0 0).Deterministic lists {} 0 ∧
    (lists.outline .lr1 0 0).Deterministic lists {} 0 ∧
    ∃ slr lr1, (lists.compile .slr 0 {}).table = .ok slr ∧
      (lists.compile .lr1 0 {}).table = .ok lr1 ∧
      ∀ input : List (Except String Nat),
        (∀ steps, (⟨lists, lr1, ones⟩ : Parser Nat Nat Nat Nat).moves steps input <+:
          (⟨lists, slr, ones⟩ : Parser Nat Nat Nat Nat).moves steps input) ∧
        ∀ v, (∃ steps c, (⟨lists, slr, ones⟩ : Parser Nat Nat Nat Nat).parse steps input =
            some (.accepted v, c)) ↔
          ∃ steps c, (⟨lists, lr1, ones⟩ : Parser Nat Nat Nat Nat).parse steps input =
            some (.accepted v, c) := by
  have hv : lists.validate 0 = .ok 0 := by rfl
  have single : lists.isDeterministic .slr 0 {} 0 = true := by decide +kernel
  have deterministic := deterministic_of_isDeterministic hv single
  obtain ⟨deterministic', slr, lr1, hslr, hlr1, agree⟩ :=
    (methods_agree (K := Nat) (E := String) hv).2 {} (fun _ _ => rfl) deterministic
  exact ⟨hv, deterministic, deterministic', slr, lr1, hslr, hlr1, agree ones⟩

end Grammar

end BottomUp
