import BottomUp.Automaton.Closure
import BottomUp.Proofs.First

/-!
# Closures are least

`Closes` is the rule by which a closure grows: an item with its dot before a nonterminal
brings in the first items of the nonterminal's productions.  A closure holds exactly what
the rule gives (`mem_closure_iff`), provided that the lookahead rule is *confined*: what
it passes on is the lookahead it is given or one of its alphabet.  Then every demand is
for a listed nonterminal with one of finitely many lookaheads, and there are as many
layers as such demands.  Both lookahead rules are confined.
-/

namespace BottomUp

variable {T N V Λ : Type} {g : Grammar T N V}

/-! ## Items and demands -/

namespace Item

/-- The production of an item with something right of its dot. -/
theorem exists_of_rest {i : Item Λ} {s : Symbol T N} {rest : List (Symbol T N)}
    (h : i.rest g = s :: rest) :
    ∃ p, g.productions[i.production]? = some p ∧
      p.rhs = p.rhs.take i.dot ++ s :: rest := by
  cases hp : g.productions[i.production]? with
  | none => simp [Item.rest, Grammar.rhs, hp] at h
  | some p =>
      rw [Item.rest, Grammar.rhs_of_getElem? hp] at h
      exact ⟨p, rfl, by rw [← h, List.take_append_drop]⟩

end Item

variable [Ordered N]

/-- What the rule passes on behind a part of a right-hand side is the lookahead of the item
or one of the alphabet. -/
def LookaheadRule.Confined (rule : LookaheadRule g Λ) : Prop :=
  ∀ p ∈ g.productions, ∀ rest, rest <:+ p.rhs → ∀ a, ∀ b ∈ rule.inherit rest a,
    b = a ∨ b ∈ rule.alphabet

theorem LookaheadRule.confined_lr0 : (lr0 g).Confined := by
  intro _ _ _ _ a b _
  exact .inl rfl

theorem LookaheadRule.confined_lr1 [Ordered T] : (lr1 g).Confined := by
  intro p hp rest hr a b hb
  rcases FirstSets.mem_ofSequence.mp (SortedSet.mem_toList.mp hb) with ⟨t, rfl, h⟩ | ⟨h, _⟩
  · have := FirstSets.mem_terminals_of_begins_suffix hp hr h
    exact .inr (List.mem_map.mpr ⟨t, SortedSet.mem_toList.mpr this, rfl⟩)
  · exact .inl h

theorem Item.mem_demands {rule : LookaheadRule g Λ} {i : Item Λ} {d : Demand N Λ} :
    d ∈ i.demands rule ↔
      ∃ rest, i.rest g = .nonterminal d.nonterminal :: rest ∧
        d.ahead ∈ rule.inherit rest i.ahead := by
  unfold Item.demands
  split
  · rename_i n rest h
    rw [h, List.mem_map]
    constructor
    · rintro ⟨b, hb, rfl⟩
      exact ⟨rest, rfl, hb⟩
    · rintro ⟨_, he, hb⟩
      cases he
      exact ⟨d.ahead, hb, rfl⟩
  · rename_i h
    constructor
    · exact fun hd => absurd hd List.not_mem_nil
    · rintro ⟨rest, hr, _⟩
      exact absurd hr (h d.nonterminal rest)

theorem Demand.mem_items {rule : LookaheadRule g Λ} {d : Demand N Λ} {i : Item Λ} :
    i ∈ d.items rule ↔
      i.production ∈ g.alternatives d.nonterminal ∧ i.dot = 0 ∧ i.ahead = d.ahead := by
  simp only [items, Tabulated.get_eq, List.mem_map]
  constructor
  · rintro ⟨p, hp, rfl⟩
    exact ⟨hp, rfl, rfl⟩
  · rintro ⟨hp, hd, ha⟩
    refine ⟨i.production, hp, ?_⟩
    rw [← hd, ← ha]

namespace ItemSet

/-! ## The rule of a closure -/

variable [Ordered Λ]

/-- The given items and whatever meets their demands, directly or through other demands. -/
inductive Closes (rule : LookaheadRule g Λ) (items : ItemSet Λ) : Item Λ → Prop
  | given {i : Item Λ} : i ∈ items → Closes rule items i
  | meet {i : Item Λ} {n : N} {rest : List (Symbol T N)} {b : Λ} {p : Nat} :
      Closes rule items i → i.rest g = .nonterminal n :: rest → b ∈ rule.inherit rest i.ahead →
      p ∈ g.alternatives n → Closes rule items ⟨p, 0, b⟩

/-- Lookaheads that demands of an item set can have. -/
def aheads (rule : LookaheadRule g Λ) (items : ItemSet Λ) : List Λ :=
  rule.alphabet ++ items.toList.map Item.ahead

/-- All demands that can come up in a closure. -/
def possibleDemands (rule : LookaheadRule g Λ) (items : ItemSet Λ) : List (Demand N Λ) :=
  g.nonterminals.flatMap fun n => (aheads rule items).map fun a => ⟨n, a⟩

variable {rule : LookaheadRule g Λ} {items : ItemSet Λ}

theorem mem_possibleDemands {d : Demand N Λ} :
    d ∈ possibleDemands rule items ↔
      d.nonterminal ∈ g.nonterminals ∧ d.ahead ∈ aheads rule items := by
  simp only [possibleDemands, List.mem_flatMap, List.mem_map]
  constructor
  · rintro ⟨n, hn, a, ha, rfl⟩
    exact ⟨hn, ha⟩
  · rintro ⟨hn, ha⟩
    exact ⟨d.nonterminal, hn, d.ahead, ha, rfl⟩

/-- As many things come of pairing as there are pairs with a possible lookahead. -/
theorem length_flatMap_aheads {α β : Type} (f : α → Λ → β) (l : List α) :
    (l.flatMap fun x => (aheads rule items).map (f x)).length =
      l.length * (rule.alphabet.length + items.size) := by
  induction l with
  | nil => simp
  | cons x l ih =>
      rw [List.flatMap_cons, List.length_append, ih]
      simp only [aheads, List.length_map, List.length_append, SortedSet.length_toList,
        List.length_cons]
      rw [Nat.succ_mul, Nat.add_comm]

theorem length_possibleDemands :
    (possibleDemands rule items).length =
      g.nonterminals.length * (rule.alphabet.length + items.size) :=
  length_flatMap_aheads Demand.mk g.nonterminals

/-- What is passed on from a possible lookahead is possible. -/
theorem mem_aheads_of_inherit (hc : rule.Confined) {i : Item Λ} {s : Symbol T N}
    {rest : List (Symbol T N)} {b : Λ} (hr : i.rest g = s :: rest)
    (hi : i.ahead ∈ aheads rule items) (hb : b ∈ rule.inherit rest i.ahead) :
    b ∈ aheads rule items := by
  obtain ⟨p, hp, hrhs⟩ := Item.exists_of_rest hr
  have suffix : rest <:+ p.rhs :=
    hrhs ▸ (List.suffix_cons _ rest).trans (List.suffix_append _ _)
  cases hc p (List.mem_of_getElem? hp) rest suffix i.ahead b hb with
  | inl h => exact h ▸ hi
  | inr h => exact List.mem_append_left _ h

/-- An item whose lookahead is possible makes possible demands. -/
theorem mem_possibleDemands_of_mem_demands (hc : rule.Confined) {i : Item Λ} {d : Demand N Λ}
    (hi : i.ahead ∈ aheads rule items) (hd : d ∈ i.demands rule) :
    d ∈ possibleDemands rule items := by
  obtain ⟨rest, hr, hb⟩ := Item.mem_demands.mp hd
  obtain ⟨p, hp, hrhs⟩ := Item.exists_of_rest hr
  have listed : d.nonterminal ∈ g.nonterminals :=
    Grammar.mem_nonterminals_of_mem_rhs (List.mem_of_getElem? hp) (by rw [hrhs]; simp)
  exact mem_possibleDemands.mpr ⟨listed, mem_aheads_of_inherit hc hr hi hb⟩

theorem mem_demands_iff (hc : rule.Confined) {d : Demand N Λ} :
    d ∈ demands rule items ↔
      Generated (Demand.next rule) (items.toList.flatMap (Item.demands rule)) d := by
  refine mem_reach_iff (u := possibleDemands rule items) ?_ ?_
    (Nat.le_of_eq length_possibleDemands)
  · intro d hd
    obtain ⟨i, hi, hd⟩ := List.mem_flatMap.mp hd
    refine mem_possibleDemands_of_mem_demands hc ?_ hd
    exact List.mem_append_right _ (List.mem_map.mpr ⟨i, hi, rfl⟩)
  · intro d hd e he
    obtain ⟨i, hi, he⟩ := List.mem_flatMap.mp he
    obtain ⟨_, _, ha⟩ := Demand.mem_items.mp hi
    exact mem_possibleDemands_of_mem_demands hc (ha ▸ (mem_possibleDemands.mp hd).2) he

/-- What meets a demand of an item that the rule gives is given by the rule. -/
theorem Closes.of_mem_items {i j : Item Λ} {d : Demand N Λ} (hi : Closes rule items i)
    (hd : d ∈ i.demands rule) (hj : j ∈ d.items rule) : Closes rule items j := by
  obtain ⟨rest, hr, hb⟩ := Item.mem_demands.mp hd
  obtain ⟨hp, hz, ha⟩ := Demand.mem_items.mp hj
  obtain ⟨p, dot, ahead⟩ := j
  cases hz
  cases ha
  exact .meet hi hr hb hp

theorem mem_closure_iff (hc : rule.Confined) {i : Item Λ} :
    i ∈ closure rule items ↔ Closes rule items i := by
  rw [closure, SortedSet.mem_insertAll, List.mem_flatMap]
  constructor
  · rintro (⟨d, hd, hi⟩ | h)
    · -- every generated demand is met by items that the rule gives
      have met : ∀ {d : Demand N Λ}, Generated (Demand.next rule)
          (items.toList.flatMap (Item.demands rule)) d →
          ∀ i ∈ d.items rule, Closes rule items i := by
        intro d hd
        induction hd with
        | seed h =>
            intro i hi
            obtain ⟨j, hj, hd⟩ := List.mem_flatMap.mp h
            exact (Closes.given (SortedSet.mem_toList.mp hj)).of_mem_items hd hi
        | step _ he ih =>
            intro i hi
            obtain ⟨j, hj, he⟩ := List.mem_flatMap.mp he
            exact (ih j hj).of_mem_items he hi
      exact met ((mem_demands_iff hc).mp hd) i hi
    · exact .given h
  · intro h
    induction h with
    | given h => exact .inr h
    | @meet i n rest b p _ hr hb hp ih =>
        have hd : (⟨n, b⟩ : Demand N Λ) ∈ i.demands rule := Item.mem_demands.mpr ⟨rest, hr, hb⟩
        refine .inl ⟨⟨n, b⟩, (mem_demands_iff hc).mpr ?_, Demand.mem_items.mpr ⟨hp, rfl, rfl⟩⟩
        rcases ih with ⟨d, hm, hi⟩ | hi
        · exact .step ((mem_demands_iff hc).mp hm) (List.mem_flatMap.mpr ⟨i, hi, hd⟩)
        · exact .seed (List.mem_flatMap.mpr ⟨i, SortedSet.mem_toList.mpr hi, hd⟩)

/-- An item of a closure that has read something was given. -/
theorem mem_of_mem_closure_of_pos (hc : rule.Confined) {i : Item Λ} (hi : i ∈ closure rule items)
    (hd : 0 < i.dot) : i ∈ items := by
  cases (mem_closure_iff hc).mp hi with
  | given h => exact h
  | meet _ _ _ _ => exact absurd hd (Nat.lt_irrefl 0)

theorem mem_closure_of_mem (hc : rule.Confined) {i : Item Λ} (hi : i ∈ items) :
    i ∈ closure rule items :=
  (mem_closure_iff hc).mpr (.given hi)

/-- Closures are closed. -/
theorem mem_closure_of_rest (hc : rule.Confined) {i : Item Λ} {n : N} {rest : List (Symbol T N)}
    {b : Λ} {p : Nat} (hi : i ∈ closure rule items) (hr : i.rest g = .nonterminal n :: rest)
    (hb : b ∈ rule.inherit rest i.ahead) (hp : p ∈ g.alternatives n) :
    ⟨p, 0, b⟩ ∈ closure rule items :=
  (mem_closure_iff hc).mpr (.meet ((mem_closure_iff hc).mp hi) hr hb hp)

theorem mem_advancePast [Ordered T] {i : Item Λ} {s : Symbol T N} :
    i ∈ advancePast g items s ↔ ∃ j ∈ items, j.next? g = some s ∧ j.advance = i := by
  simp [advancePast, and_assoc]

end ItemSet

end BottomUp
