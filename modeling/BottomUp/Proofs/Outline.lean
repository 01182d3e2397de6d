import BottomUp.Proofs.Collection
import BottomUp.Proofs.Follow
import BottomUp.Table.Compile

/-!
# Outlines of automata

The two methods build automata of different items.  An *outline* forgets the difference.
It keeps the states and transitions, where the dots stand, and which lookaheads each item
expects when it is completed: its own with LR(1) items, and what follows its left-hand
side with LR(0) items.

Everything that tables and parsers need of an automaton is one list of laws
(`Outline.Lawful`), and the outlines of both methods obey them (`lawful_outline`).  A
first group of laws goes back from an item: one that has read a symbol comes from the
state before (`back`), and one that has read nothing is demanded by another or starts the
automaton (`demanded`).  A second group goes on: an item that is expected somewhere is
expected after the next symbol (`expects_next`), and whatever can follow a nonterminal is
expected by its productions (`expects_demanded`).
-/

namespace BottomUp

variable {T N V Λ : Type} [Ordered T] [Ordered N] [Ordered Λ]

/-- The states of an automaton with the places of the dots and the expected lookaheads. -/
structure Outline (T N : Type) where
  /-- The number of states. -/
  size : Nat
  /-- The state that a symbol leads to. -/
  next? : Nat → Symbol T N → Option Nat
  /-- The state has an item of the production with its dot there. -/
  holds : Nat → Nat → Nat → Prop
  /-- An item of the production with its dot there expects the lookahead in the state. -/
  expects : Nat → Nat → Nat → Lookahead T → Prop

/-- The outline of an automaton, given the lookaheads on which an item is reduced. -/
def Machine.outline (machine : Machine T N Λ) (aheads : Item Λ → List (Lookahead T)) :
    Outline T N where
  size := machine.states.length
  next? := machine.next?
  holds i p d := ∃ item ∈ machine.items i, item.production = p ∧ item.dot = d
  expects i p d a := ∃ item ∈ machine.items i, item.production = p ∧ item.dot = d ∧ a ∈ aheads item

/-- The outline of the automaton that a method builds from a start production. -/
def Grammar.outline (g : Grammar T N V) (method : Method) (start : N) (p : Nat) : Outline T N :=
  match method with
  | .slr => (Machine.ofStart (.lr0 g) p).outline (g.followers (.of g start))
  | .lr1 => (Machine.ofStart (.lr1 g) p).outline fun item => [item.ahead]

/-! ## Start productions -/

/-- The production is the only one of the start symbol, which is on no right-hand side. -/
structure Grammar.Starts (g : Grammar T N V) (start : N) (p : Nat) : Prop where
  listed : start ∈ g.nonterminals
  alternatives : g.alternatives start = [p]
  unmentioned : ∀ q ∈ g.productions, Symbol.nonterminal start ∉ q.rhs

namespace Grammar

variable {g : Grammar T N V} {start : N} {p : Nat}

theorem starts_of_validate (h : g.validate start = .ok p) : g.Starts start p := by
  unfold validate at h
  split at h
  · rename_i listed
    split at h
    · cases h
    · rename_i alternatives
      split at h
      · cases h
      · split at h
        · cases h
        · rename_i unmentioned
          split at h
          · cases h
          · cases h
            refine ⟨listed, alternatives, fun q hq hm => unmentioned ?_⟩
            exact List.any_eq_true.mpr ⟨q, hq, decide_eq_true hm⟩
    · cases h
  · cases h

namespace Starts

omit [Ordered T] in
theorem exists_production (h : g.Starts start p) :
    ∃ production, g.productions[p]? = some production ∧ production.lhs = start :=
  mem_alternatives.mp (h.alternatives ▸ List.mem_singleton.mpr rfl)

omit [Ordered T] in
theorem eq_of_lhs (h : g.Starts start p) {q : Nat} {production : Production T N V}
    (hq : g.productions[q]? = some production) (hl : production.lhs = start) : q = p := by
  have hm : q ∈ g.alternatives start := mem_alternatives.mpr ⟨production, hq, hl⟩
  rw [h.alternatives] at hm
  exact List.mem_singleton.mp hm

omit [Ordered T] in
/-- The start production is an alternative of no nonterminal that is right of a dot. -/
theorem not_mem_alternatives (h : g.Starts start p) {q d : Nat} {n : N}
    {rest : List (Symbol T N)} (hr : (g.rhs q).drop d = .nonterminal n :: rest) :
    p ∉ g.alternatives n := by
  intro hp
  obtain ⟨production, hs, rfl⟩ := h.exists_production
  obtain ⟨_, hs', hn⟩ := mem_alternatives.mp hp
  cases hs.symm.trans hs'
  have hm : .nonterminal n ∈ g.rhs q := List.mem_of_mem_drop (hr ▸ List.mem_cons_self)
  cases hq : g.productions[q]? with
  | none =>
      rw [rhs, hq] at hm
      exact List.not_mem_nil hm
  | some other =>
      rw [rhs_of_getElem? hq] at hm
      exact h.unmentioned other (List.mem_of_getElem? hq) (hn ▸ hm)

end Starts

end Grammar

/-! ## The laws -/

namespace Outline

/-- The laws of an outline of an automaton that starts with a production. -/
structure Lawful (g : Grammar T N V) (start : Nat) (o : Outline T N) : Prop where
  exists_production {i p d : Nat} : o.holds i p d →
    ∃ production, g.productions[p]? = some production ∧ d ≤ production.rhs.length
  lt_size {i p d : Nat} : o.holds i p d → i < o.size
  dot_eq_zero {p d : Nat} : o.holds 0 p d → d = 0
  eq_zero {i : Nat} : o.holds i start 0 → i = 0
  exists_next {i p d : Nat} {s : Symbol T N} : o.holds i p d → (g.rhs p)[d]? = some s →
    ∃ j, o.next? i s = some j
  entered {i j : Nat} {s : Symbol T N} : o.next? i s = some j →
    j < o.size ∧ ∃ p d, o.holds j p (d + 1)
  back {i j p d : Nat} {s : Symbol T N} : o.next? i s = some j → o.holds j p (d + 1) →
    o.holds i p d ∧ (g.rhs p)[d]? = some s
  demanded {i p : Nat} : o.holds i p 0 → p ≠ start →
    ∃ q d n, o.holds i q d ∧ (g.rhs q)[d]? = some (.nonterminal n) ∧ p ∈ g.alternatives n
  holds_of_expects {i p d : Nat} {a : Lookahead T} : o.expects i p d a → o.holds i p d
  expects_zero : o.expects 0 start 0 none
  expects_next {i j p d : Nat} {s : Symbol T N} {a : Lookahead T} : o.next? i s = some j →
    o.expects i p d a → (g.rhs p)[d]? = some s → o.expects j p (d + 1) a
  expects_demanded {i p d q : Nat} {n : N} {rest : List (Symbol T N)} {a b : Lookahead T} :
    o.expects i p d a → (g.rhs p).drop d = .nonterminal n :: rest → q ∈ g.alternatives n →
    b ∈ (FirstSets.of g).ofSequence rest a → o.expects i q 0 b
  start_expects {i d : Nat} {a : Lookahead T} : o.expects i start d a → a = none
  mem_terminals {i p d : Nat} {t : T} : o.expects i p d (some t) → t ∈ g.terminals

variable {g : Grammar T N V} {start : Nat} {o : Outline T N}

/-- A transition goes on a symbol of a right-hand side. -/
theorem Lawful.exists_holds_of_next (h : o.Lawful g start) {i j : Nat} {s : Symbol T N}
    (hn : o.next? i s = some j) : ∃ p d, o.holds i p d ∧ (g.rhs p)[d]? = some s := by
  obtain ⟨_, p, d, hj⟩ := h.entered hn
  exact ⟨p, d, h.back hn hj⟩

theorem Lawful.lt_of_next (h : o.Lawful g start) {i j : Nat} {s : Symbol T N}
    (hn : o.next? i s = some j) : i < o.size := by
  obtain ⟨_, _, hi, _⟩ := h.exists_holds_of_next hn
  exact h.lt_size hi

theorem Lawful.ne_zero_of_next (h : o.Lawful g start) {i j : Nat} {s : Symbol T N}
    (hn : o.next? i s = some j) : j ≠ 0 := by
  rintro rfl
  obtain ⟨_, p, d, hj⟩ := h.entered hn
  cases h.dot_eq_zero hj

theorem Lawful.mem_terminals_of_next (h : o.Lawful g start) {i j : Nat} {t : T}
    (hn : o.next? i (.terminal t) = some j) : t ∈ g.terminals := by
  obtain ⟨p, d, hi, hs⟩ := h.exists_holds_of_next hn
  obtain ⟨production, hp, _⟩ := h.exists_production hi
  rw [Grammar.rhs_of_getElem? hp] at hs
  exact Grammar.mem_terminals.mpr ⟨production, List.mem_of_getElem? hp, List.mem_of_getElem? hs⟩

/-- Where a production other than the start production begins there is a transition on its
left-hand side. -/
theorem Lawful.exists_goto (h : o.Lawful g start) {i p : Nat} {production : Production T N V}
    (hi : o.holds i p 0) (hne : p ≠ start) (hp : g.productions[p]? = some production) :
    ∃ j, o.next? i (.nonterminal production.lhs) = some j := by
  obtain ⟨q, d, n, hq, hs, hn⟩ := h.demanded hi hne
  obtain ⟨_, hp', rfl⟩ := Grammar.mem_alternatives.mp hn
  cases hp.symm.trans hp'
  exact h.exists_next hq hs

end Outline

/-! ## Both methods obey the laws -/

/-- What makes the outline of an automaton lawful: the lookaheads on which items are reduced
are passed on as the rule passes on its own. -/
structure LookaheadRule.Serves {g : Grammar T N V} (rule : LookaheadRule g Λ) (start : Nat)
    (aheads : Item Λ → List (Lookahead T)) : Prop where
  confined : rule.Confined
  initial : none ∈ aheads ⟨start, 0, rule.initial⟩
  advance (i : Item Λ) : aheads i.advance = aheads i
  meet {i : Item Λ} {n : N} {rest : List (Symbol T N)} {q : Nat} {a b : Lookahead T} :
    i.rest g = .nonterminal n :: rest → q ∈ g.alternatives n → a ∈ aheads i →
    b ∈ (FirstSets.of g).ofSequence rest a →
    ∃ c ∈ rule.inherit rest i.ahead, b ∈ aheads ⟨q, 0, c⟩
  start {d : Nat} {a : Lookahead T} : a ∈ aheads ⟨start, d, rule.initial⟩ → a = none
  terminals {i : Item Λ} {t : T} : i.ahead ∈ rule.alphabet ++ [rule.initial] →
    some t ∈ aheads i → t ∈ g.terminals

namespace Machine

open ItemSet

variable {g : Grammar T N V} {rule : LookaheadRule g Λ} {start : N} {p : Nat}

omit [Ordered T] in
theorem mem_startKernel {i : Item Λ} : i ∈ startKernel rule p ↔ i = ⟨p, 0, rule.initial⟩ := by
  simp [startKernel]

omit [Ordered T] in
theorem isEmpty_startKernel : (startKernel rule p).isEmpty = false := by
  cases h : (startKernel rule p).isEmpty with
  | false => rfl
  | true =>
      rw [← SortedSet.isEmpty_toList, List.isEmpty_iff] at h
      have : (⟨p, 0, rule.initial⟩ : Item Λ) ∈ (startKernel rule p).toList :=
        SortedSet.mem_toList.mpr (mem_startKernel.mpr rfl)
      rw [h] at this
      exact absurd this List.not_mem_nil

omit [Ordered T] in
theorem aheads_startKernel :
    aheads rule (startKernel rule p) = rule.alphabet ++ [rule.initial] := by
  have : (startKernel rule p).toList = [⟨p, 0, rule.initial⟩] := by
    refine eq_of_mem_iff (fun h => Ordered.Before.asymm h) (SortedSet.sorted _) (by simp) ?_
    intro i
    rw [SortedSet.mem_toList, mem_startKernel, List.mem_singleton]
  rw [aheads, this]
  rfl

theorem possible_items (hc : rule.Confined) (i : Nat) :
    Possible rule (startKernel rule p) ((ofStart rule p).items i) := by
  intro item hi
  have step : ∀ (items : ItemSet Λ) (s : Symbol T N), Possible rule (startKernel rule p) items →
      Possible rule (startKernel rule p) (goto rule items s) :=
    fun items s h => (h.advancePast s).closure hc
  exact items_induction hc isEmpty_startKernel (possible_self.closure hc) step
    (lt_of_mem_items hi) item hi

theorem exists_production_of_mem (hc : rule.Confined) (hs : g.Starts start p) {i : Nat}
    {item : Item Λ} (h : item ∈ (ofStart rule p).items i) :
    ∃ production, g.productions[item.production]? = some production ∧
      item.dot ≤ production.rhs.length := by
  rcases List.mem_append.mp (possible_items hc i item h) with h | h
  · have h := mem_startKernel.mp (SortedSet.mem_toList.mp h)
    obtain ⟨production, hp, _⟩ := hs.exists_production
    rw [h]
    exact ⟨production, hp, Nat.zero_le _⟩
  · obtain ⟨⟨q, d⟩, hd, h⟩ := List.mem_flatMap.mp h
    obtain ⟨a, _, rfl⟩ := List.mem_map.mp h
    exact mem_dots.mp hd

/-- Items of the start production keep the lookahead they begin with. -/
theorem ahead_of_mem_start (hc : rule.Confined) (hs : g.Starts start p) {i : Nat}
    {item : Item Λ} (h : item ∈ (ofStart rule p).items i) (hp : item.production = p) :
    item.ahead = rule.initial := by
  have closed (items : ItemSet Λ) (h : ∀ j ∈ items, j.production = p → j.ahead = rule.initial) :
      ∀ j ∈ closure rule items, j.production = p → j.ahead = rule.initial := by
    intro j hj hp
    cases (mem_closure_iff hc).mp hj with
    | given hj => exact h j hj hp
    | meet _ hr _ hq => exact absurd (hp ▸ hq) (hs.not_mem_alternatives hr)
  refine items_induction (P := fun items => ∀ j ∈ items, j.production = p →
    j.ahead = rule.initial) hc isEmpty_startKernel ?_ ?_ (lt_of_mem_items h) item h hp
  · refine closed _ fun j hj _ => ?_
    rw [mem_startKernel.mp hj]
  · intro items s ih
    refine closed _ fun j hj hp => ?_
    obtain ⟨k, hk, _, rfl⟩ := mem_advancePast.mp hj
    exact ih k hk hp

/-- An item that has read nothing is demanded or belongs to the start production. -/
theorem demanded_of_mem (hc : rule.Confined) {i : Nat} {item : Item Λ}
    (h : item ∈ (ofStart rule p).items i) (hd : item.dot = 0) (hp : item.production ≠ p) :
    ∃ j ∈ (ofStart rule p).items i, ∃ n rest,
      j.rest g = .nonterminal n :: rest ∧ item.production ∈ g.alternatives n := by
  have closed (items : ItemSet Λ) (h : ∀ j ∈ items, j.dot = 0 → j.production = p) :
      ∀ j ∈ closure rule items, j.dot = 0 → j.production ≠ p →
        ∃ k ∈ closure rule items, ∃ n rest,
          k.rest g = .nonterminal n :: rest ∧ j.production ∈ g.alternatives n := by
    intro j hj hd hp
    cases (mem_closure_iff hc).mp hj with
    | given hj => exact absurd (h j hj hd) hp
    | @meet k n rest _ _ hk hr _ hq => exact ⟨k, (mem_closure_iff hc).mpr hk, n, rest, hr, hq⟩
  refine items_induction (P := fun items => ∀ j ∈ items, j.dot = 0 → j.production ≠ p →
    ∃ k ∈ items, ∃ n rest, k.rest g = .nonterminal n :: rest ∧ j.production ∈ g.alternatives n)
    hc isEmpty_startKernel ?_ ?_ (lt_of_mem_items h) item h hd hp
  · refine closed _ fun j hj _ => ?_
    rw [mem_startKernel.mp hj]
  · intro items s _
    refine closed _ fun j hj hd => ?_
    obtain ⟨k, _, _, rfl⟩ := mem_advancePast.mp hj
    cases hd

theorem mem_items_of_next? (hc : rule.Confined) {i j : Nat} {s : Symbol T N} {item : Item Λ}
    (hn : (ofStart rule p).next? i s = some j) (hi : item ∈ (ofStart rule p).items i)
    (hs : item.next? g = some s) : item.advance ∈ (ofStart rule p).items j := by
  rw [ofStart, items_of_next? hc isEmpty_startKernel hn, goto]
  exact mem_closure_of_mem hc (mem_advancePast.mpr ⟨item, hi, hs, rfl⟩)

/-- An item behind a transition that has read something has read the symbol of the
transition. -/
theorem exists_of_mem_items_of_next? (hc : rule.Confined) {i j : Nat} {s : Symbol T N}
    {item : Item Λ} (hn : (ofStart rule p).next? i s = some j)
    (hj : item ∈ (ofStart rule p).items j) (hd : 0 < item.dot) :
    ∃ before ∈ (ofStart rule p).items i, before.next? g = some s ∧ before.advance = item := by
  rw [ofStart, items_of_next? hc isEmpty_startKernel hn, goto] at hj
  exact mem_advancePast.mp (mem_of_mem_closure_of_pos hc hj hd)

theorem eq_zero_of_mem_start (hc : rule.Confined) (hs : g.Starts start p) {i : Nat}
    {item : Item Λ} (h : item ∈ (ofStart rule p).items i) (hp : item.production = p)
    (hd : item.dot = 0) : i = 0 := by
  refine (eq_zero_or_exists_next? hc isEmpty_startKernel (lt_of_mem_items h)).resolve_right ?_
  rintro ⟨k, s, hn⟩
  rw [ofStart, items_of_next? hc isEmpty_startKernel hn, goto] at h
  cases (mem_closure_iff hc).mp h with
  | given h =>
      obtain ⟨_, _, _, rfl⟩ := mem_advancePast.mp h
      cases hd
  | meet _ hr _ hq => exact hs.not_mem_alternatives hr (hp ▸ hq)

theorem dot_eq_zero_of_mem (hc : rule.Confined) {item : Item Λ}
    (h : item ∈ (ofStart rule p).items 0) : item.dot = 0 := by
  rw [ofStart, items_zero hc isEmpty_startKernel] at h
  cases (mem_closure_iff hc).mp h with
  | given h => rw [mem_startKernel.mp h]
  | meet _ _ _ _ => rfl

theorem next?_of_mem (hc : rule.Confined) (hs : g.Starts start p) {i : Nat} {item : Item Λ}
    {s : Symbol T N} (h : item ∈ (ofStart rule p).items i)
    (hd : (g.rhs item.production)[item.dot]? = some s) : item.next? g = some s := by
  obtain ⟨production, hq, _⟩ := exists_production_of_mem hc hs h
  rw [Grammar.rhs_of_getElem? hq] at hd
  exact Item.next?_of_getElem? hq hd

theorem mem_items_of_rest (hc : rule.Confined) {i q : Nat} {item : Item Λ} {n : N}
    {rest : List (Symbol T N)} {a : Λ} (h : item ∈ (ofStart rule p).items i)
    (hr : item.rest g = .nonterminal n :: rest) (ha : a ∈ rule.inherit rest item.ahead)
    (hq : q ∈ g.alternatives n) : ⟨q, 0, a⟩ ∈ (ofStart rule p).items i := by
  obtain ⟨own, hi⟩ := exists_kernel_of_lt (lt_of_mem_items h)
  rw [ofStart, items_build hi] at h ⊢
  exact mem_closure_of_rest hc h hr ha hq

theorem holds_outline {machine : Machine T N Λ} {aheads : Item Λ → List (Lookahead T)}
    {i q d : Nat} : (machine.outline aheads).holds i q d ↔
      ∃ item ∈ machine.items i, item.production = q ∧ item.dot = d :=
  .rfl

theorem expects_outline {machine : Machine T N Λ} {aheads : Item Λ → List (Lookahead T)}
    {i q d : Nat} {a : Lookahead T} : (machine.outline aheads).expects i q d a ↔
      ∃ item ∈ machine.items i, item.production = q ∧ item.dot = d ∧ a ∈ aheads item :=
  .rfl

theorem next?_outline {machine : Machine T N Λ} {aheads : Item Λ → List (Lookahead T)}
    {i : Nat} {s : Symbol T N} : (machine.outline aheads).next? i s = machine.next? i s :=
  rfl

theorem lawful_of_serves {aheads : Item Λ → List (Lookahead T)} (hs : g.Starts start p)
    (hr : rule.Serves p aheads) : ((ofStart rule p).outline aheads).Lawful g p where
  exists_production := by
    intro i q d h
    obtain ⟨item, hi, rfl, rfl⟩ := holds_outline.mp h
    exact exists_production_of_mem hr.confined hs hi
  lt_size := by
    intro i q d h
    obtain ⟨item, hi, _⟩ := holds_outline.mp h
    exact lt_of_mem_items hi
  dot_eq_zero := by
    intro q d h
    obtain ⟨item, hi, rfl, rfl⟩ := holds_outline.mp h
    exact dot_eq_zero_of_mem hr.confined hi
  eq_zero := by
    intro i h
    obtain ⟨item, hi, hp, hd⟩ := holds_outline.mp h
    exact eq_zero_of_mem_start hr.confined hs hi hp hd
  exists_next := by
    intro i q d s h hd
    obtain ⟨item, hi, rfl, rfl⟩ := holds_outline.mp h
    rw [next?_outline]
    exact exists_next? hi (next?_of_mem hr.confined hs hi hd)
  entered := by
    intro i j s hn
    rw [next?_outline] at hn
    refine ⟨lt_of_next?_build hr.confined isEmpty_startKernel hn, ?_⟩
    obtain ⟨item, h, hd⟩ := exists_mem_of_next? hr.confined isEmpty_startKernel hn
    have hj := mem_items_of_next? hr.confined hn h hd
    exact ⟨item.production, item.dot, holds_outline.mpr ⟨item.advance, hj, rfl, rfl⟩⟩
  back := by
    intro i j q d s hn h
    obtain ⟨item, hj, rfl, hd⟩ := holds_outline.mp h
    obtain ⟨before, hi, hb, rfl⟩ := exists_of_mem_items_of_next? hr.confined hn hj (by omega)
    obtain rfl : before.dot = d := Nat.succ.inj hd
    refine ⟨holds_outline.mpr ⟨before, hi, rfl, rfl⟩, ?_⟩
    rw [← List.head?_drop]
    exact hb
  demanded := by
    intro i q h hne
    obtain ⟨item, hi, rfl, hd⟩ := holds_outline.mp h
    obtain ⟨j, hj, n, rest, hrest, hn⟩ := demanded_of_mem hr.confined hi hd hne
    refine ⟨j.production, j.dot, n, holds_outline.mpr ⟨j, hj, rfl, rfl⟩, ?_, hn⟩
    rw [← List.head?_drop]
    exact congrArg List.head? hrest
  holds_of_expects := by
    intro i q d a h
    obtain ⟨item, hi, hp, hd, _⟩ := expects_outline.mp h
    exact holds_outline.mpr ⟨item, hi, hp, hd⟩
  expects_zero := by
    refine expects_outline.mpr ⟨⟨p, 0, rule.initial⟩, ?_, rfl, rfl, hr.initial⟩
    rw [ofStart, items_zero hr.confined isEmpty_startKernel]
    exact mem_closure_of_mem hr.confined (mem_startKernel.mpr rfl)
  expects_next := by
    intro i j q d s a hn h hd
    obtain ⟨item, hi, rfl, rfl, ha⟩ := expects_outline.mp h
    have hj := mem_items_of_next? hr.confined hn hi (next?_of_mem hr.confined hs hi hd)
    exact expects_outline.mpr ⟨item.advance, hj, rfl, rfl, (hr.advance item).symm ▸ ha⟩
  expects_demanded := by
    intro i q d q' n rest a b h hrest hq hb
    obtain ⟨item, hi, rfl, rfl, ha⟩ := expects_outline.mp h
    obtain ⟨c, hc, hb⟩ := hr.meet hrest hq ha hb
    have hi := mem_items_of_rest hr.confined hi hrest hc hq
    exact expects_outline.mpr ⟨⟨q', 0, c⟩, hi, rfl, rfl, hb⟩
  start_expects := by
    intro i d a h
    obtain ⟨⟨q, d, ahead⟩, hi, rfl, rfl, ha⟩ := expects_outline.mp h
    cases ahead_of_mem_start hr.confined hs hi rfl
    exact hr.start ha
  mem_terminals := by
    intro i q d t h
    obtain ⟨item, hi, _, _, ha⟩ := expects_outline.mp h
    refine hr.terminals ?_ ha
    have := ahead_of_mem_possibleItems (possible_items hr.confined i item hi)
    rwa [aheads_startKernel] at this

end Machine

namespace LookaheadRule

variable {g : Grammar T N V} {start : N} {p : Nat}

theorem followers_of_getElem? {follow : FollowSets T N} {q d : Nat}
    {production : Production T N V} (hq : g.productions[q]? = some production) :
    g.followers follow ⟨q, d, ()⟩ = follow.lookaheads production.lhs := by
  simp only [Grammar.followers, hq]

theorem serves_lr0 (hs : g.Starts start p) : (lr0 g).Serves p (g.followers (.of g start)) where
  confined := confined_lr0
  initial := by
    obtain ⟨production, hp, rfl⟩ := hs.exists_production
    rw [followers_of_getElem? hp]
    exact FollowSets.none_mem_lookaheads_start hs.listed
  advance _ := rfl
  meet := by
    intro i n rest q a b hr hq ha hb
    obtain ⟨production, hp, hrhs⟩ := Item.exists_of_rest hr
    obtain ⟨next, hnext, rfl⟩ := Grammar.mem_alternatives.mp hq
    refine ⟨(), List.mem_singleton.mpr rfl, ?_⟩
    rw [followers_of_getElem? hp] at ha
    rw [followers_of_getElem? hnext]
    exact FollowSets.mem_lookaheads_of_mem (List.mem_of_getElem? hp) hrhs ha hb
  start := by
    intro d a ha
    obtain ⟨production, hp, rfl⟩ := hs.exists_production
    rw [followers_of_getElem? hp] at ha
    exact FollowSets.eq_none_of_mem_lookaheads_start hs.unmentioned ha
  terminals := by
    intro i t _ ha
    unfold Grammar.followers at ha
    split at ha
    · exact FollowSets.mem_terminals_of_mem_lookaheads ha
    · exact absurd ha List.not_mem_nil

theorem serves_lr1 : (lr1 g).Serves p fun item => [item.ahead] where
  confined := confined_lr1
  initial := List.mem_singleton.mpr rfl
  advance _ := rfl
  meet := by
    intro i n rest q a b _ _ ha hb
    cases List.mem_singleton.mp ha
    exact ⟨b, SortedSet.mem_toList.mpr hb, List.mem_singleton.mpr rfl⟩
  start := by
    intro d a ha
    exact List.mem_singleton.mp ha
  terminals := by
    intro i t h ha
    rw [← List.mem_singleton.mp ha] at h
    rcases List.mem_append.mp h with h | h
    · obtain ⟨t', ht, he⟩ := List.mem_map.mp h
      cases he
      exact SortedSet.mem_toList.mp ht
    · cases List.mem_singleton.mp h

end LookaheadRule

theorem Grammar.lawful_outline {g : Grammar T N V} {start : N} {p : Nat} (hs : g.Starts start p)
    (method : Method) : (g.outline method start p).Lawful g p := by
  cases method with
  | slr => exact Machine.lawful_of_serves hs (LookaheadRule.serves_lr0 hs)
  | lr1 => exact Machine.lawful_of_serves hs LookaheadRule.serves_lr1

end BottomUp
