import BottomUp.SortedMap
import BottomUp.Symbol
import Mathlib.Data.Set.Card
import Mathlib.Data.Set.Finite.List
import Mathlib.Logic.Function.Iterate

/-!
# Passes over rules

A store collects facts.  A rule adds to it what follows from the facts that it holds.  A
*pass* applies the rules in turn, each to what the ones before it have left, and passes are
repeated until one of them changes nothing.

Stores only grow.  So if their facts stay among finitely many, some pass changes nothing,
and then every rule is satisfied.  Where it is known which store satisfies the rules and
holds no more than any other that does, this is where passes come to rest
(`Accumulates.exists_passes`), in whatever order they take the rules.

The stores met here are sorted maps.  What the value at a key holds are facts about the key.
A value is a set of terminals with a mark that stands for the end of the input, so what it
holds are lookaheads.
-/

namespace BottomUp

variable {σ ρ α : Type}

/-- Every rule is applied in turn, each to what the rules before it have left. -/
def pass (apply : σ → ρ → σ) (rules : List ρ) (s : σ) : σ := rules.foldl apply s

theorem pass_cons (apply : σ → ρ → σ) (r : ρ) (rs : List ρ) (s : σ) :
    pass apply (r :: rs) s = pass apply rs (apply s r) :=
  rfl

/-- Rules that add facts to well-formed stores, and the more of them the more facts there
are.  A well-formed store is known by its facts. -/
structure Accumulates (apply : σ → ρ → σ) (rules : List ρ) (WellFormed : σ → Prop)
    (facts : σ → Set α) (adds : ρ → σ → Set α) : Prop where
  wellFormed {s : σ} {r : ρ} : WellFormed s → r ∈ rules → WellFormed (apply s r)
  facts_apply {s : σ} {r : ρ} : WellFormed s → r ∈ rules → facts (apply s r) = facts s ∪ adds r s
  mono {s s' : σ} {r : ρ} : facts s ⊆ facts s' → adds r s ⊆ adds r s'
  ext {s s' : σ} : WellFormed s → WellFormed s' → facts s = facts s' → s = s'

namespace Accumulates

variable {apply : σ → ρ → σ} {rules rs : List ρ} {WellFormed : σ → Prop} {facts : σ → Set α}
  {adds : ρ → σ → Set α} {s goal : σ}

/-! ## One pass -/

/-- A pass over some of the rules keeps a store well-formed and its facts in it. -/
theorem keeps (h : Accumulates apply rules WellFormed facts adds) (hrs : rs ⊆ rules)
    (hs : WellFormed s) : WellFormed (pass apply rs s) ∧ facts s ⊆ facts (pass apply rs s) := by
  induction rs generalizing s with
  | nil => exact ⟨hs, subset_rfl⟩
  | cons r rs ih =>
      obtain ⟨hr, more⟩ := List.cons_subset.mp hrs
      obtain ⟨wf, grows⟩ := ih more (h.wellFormed hs hr)
      refine ⟨wf, Set.Subset.trans ?_ grows⟩
      rw [h.facts_apply hs hr]
      exact Set.subset_union_left

/-- After a pass a store has what each rule would have added to it before. -/
theorem adds_subset (h : Accumulates apply rules WellFormed facts adds) (hrs : rs ⊆ rules)
    (hs : WellFormed s) : ∀ r ∈ rs, adds r s ⊆ facts (pass apply rs s) := by
  induction rs generalizing s with
  | nil => exact nofun
  | cons r rs ih =>
      obtain ⟨hr, more⟩ := List.cons_subset.mp hrs
      have hs' := h.wellFormed hs hr
      have facts_eq := h.facts_apply hs hr
      rw [pass_cons]
      intro r' hm
      rcases List.mem_cons.mp hm with rfl | hm
      · refine Set.Subset.trans ?_ (h.keeps more hs').2
        rw [facts_eq]
        exact Set.subset_union_right
      · refine Set.Subset.trans (h.mono ?_) (ih more hs' r' hm)
        rw [facts_eq]
        exact Set.subset_union_left

/-- A pass does not leave the facts of a store that satisfies the rules. -/
theorem stays (h : Accumulates apply rules WellFormed facts adds)
    (closed : ∀ r ∈ rules, adds r goal ⊆ facts goal) (hrs : rs ⊆ rules) (hs : WellFormed s)
    (within : facts s ⊆ facts goal) : facts (pass apply rs s) ⊆ facts goal := by
  induction rs generalizing s with
  | nil => exact within
  | cons r rs ih =>
      obtain ⟨hr, more⟩ := List.cons_subset.mp hrs
      refine ih more (h.wellFormed hs hr) ?_
      rw [h.facts_apply hs hr]
      exact Set.union_subset within ((h.mono within).trans (closed r hr))

/-! ## Repeated passes -/

/-- What passes keep: the store is well-formed, it holds what it held at first, and it stays
among the facts of a store that satisfies the rules. -/
theorem iterate_keeps (h : Accumulates apply rules WellFormed facts adds)
    (closed : ∀ r ∈ rules, adds r goal ⊆ facts goal) (hs : WellFormed s)
    (within : facts s ⊆ facts goal) (passes : Nat) :
    WellFormed ((pass apply rules)^[passes] s) ∧
      facts s ⊆ facts ((pass apply rules)^[passes] s) ∧
      facts ((pass apply rules)^[passes] s) ⊆ facts goal := by
  induction passes with
  | zero => exact ⟨hs, subset_rfl, within⟩
  | succ passes ih =>
      obtain ⟨wf, holds, stays⟩ := ih
      rw [Function.iterate_succ_apply']
      obtain ⟨wf', grows⟩ := h.keeps (List.Subset.refl _) wf
      exact ⟨wf', holds.trans grows, h.stays closed (List.Subset.refl _) wf stays⟩

/-- Some pass adds no fact, if there are only finitely many to add. -/
theorem exists_rest (h : Accumulates apply rules WellFormed facts adds)
    (closed : ∀ r ∈ rules, adds r goal ⊆ facts goal) (hs : WellFormed s)
    (within : facts s ⊆ facts goal) (finite : (facts goal).Finite) :
    ∃ passes,
      facts ((pass apply rules)^[passes + 1] s) = facts ((pass apply rules)^[passes] s) := by
  by_contra restless
  -- otherwise each pass adds a fact, and there are not that many
  have count (passes : Nat) : passes ≤ (facts ((pass apply rules)^[passes] s)).ncard := by
    induction passes with
    | zero => exact Nat.zero_le _
    | succ passes ih =>
        have wf := (h.iterate_keeps closed hs within passes).1
        have stays := (h.iterate_keeps closed hs within (passes + 1)).2.2
        have grows := (h.keeps (List.Subset.refl _) wf).2
        rw [← Function.iterate_succ_apply' (pass apply rules), Nat.succ_eq_add_one] at grows
        have strict := grows.ssubset_of_ne fun he => restless ⟨passes, he.symm⟩
        have := Set.ncard_lt_ncard strict (finite.subset stays)
        omega
  have most := (h.iterate_keeps closed hs within ((facts goal).ncard + 1)).2.2
  have := Set.ncard_le_ncard most finite
  have := count ((facts goal).ncard + 1)
  omega

/-- Passes come to rest at the store that satisfies the rules and holds no more than any other
that does, and at no other. -/
theorem exists_passes (h : Accumulates apply rules WellFormed facts adds) (hs : WellFormed s)
    (hg : WellFormed goal) (within : facts s ⊆ facts goal) (finite : (facts goal).Finite)
    (closed : ∀ r ∈ rules, adds r goal ⊆ facts goal)
    (least : ∀ s', WellFormed s' → facts s ⊆ facts s' → (∀ r ∈ rules, adds r s' ⊆ facts s') →
      facts goal ⊆ facts s') :
    (∃ passes, (pass apply rules)^[passes] s = goal) ∧ pass apply rules goal = goal := by
  constructor
  · obtain ⟨passes, rest⟩ := h.exists_rest closed hs within finite
    obtain ⟨wf, holds, stays⟩ := h.iterate_keeps closed hs within passes
    rw [Function.iterate_succ_apply'] at rest
    have satisfied : ∀ r ∈ rules, adds r ((pass apply rules)^[passes] s) ⊆
        facts ((pass apply rules)^[passes] s) := by
      intro r hr
      exact rest ▸ h.adds_subset (List.Subset.refl _) wf r hr
    exact ⟨passes, h.ext wf hg (stays.antisymm (least _ wf holds satisfied))⟩
  · obtain ⟨wf, grows⟩ := h.keeps (List.Subset.refl _) hg
    exact h.ext wf hg ((h.stays closed (List.Subset.refl _) hg subset_rfl).antisymm grows)

end Accumulates

/-! ## Maps as stores -/

namespace SortedMap

variable {κ β : Type} [Ordered κ] {m m' : SortedMap κ β} {ks : List κ} {k : κ} {b b' : β}

/-- The map has a value for each key of a list and for no other. -/
def HasKeys (m : SortedMap κ β) (ks : List κ) : Prop := ∀ k, (m.get? k).isSome = true ↔ k ∈ ks

theorem hasKeys_ofList_map (f : κ → β) (ks : List κ) :
    (ofList (ks.map fun k => (k, f k))).HasKeys ks := by
  intro k
  rw [get?_ofList_map]
  by_cases hk : k ∈ ks
  · simp [hk]
  · simp [hk]

theorem HasKeys.exists_get? (h : m.HasKeys ks) (hk : k ∈ ks) : ∃ b, m.get? k = some b :=
  Option.isSome_iff_exists.mp ((h k).mpr hk)

theorem HasKeys.insert (h : m.HasKeys ks) (hk : k ∈ ks) : (m.insert k b).HasKeys ks := by
  intro k'
  rw [get?_insert]
  split
  · rename_i he
    simp [he, hk]
  · exact h k'

variable {holds : β → Set α}

/-- What the values of a map hold, as facts about their keys. -/
def facts (holds : β → Set α) (m : SortedMap κ β) : Set (κ × α) :=
  {f | ∃ b, m.get? f.1 = some b ∧ f.2 ∈ holds b}

theorem mem_facts {a : α} (h : m.get? k = some b) : (k, a) ∈ m.facts holds ↔ a ∈ holds b := by
  simp [facts, h]

/-- A value that holds more adds facts about its key. -/
theorem facts_insert {more : Set α} (h : m.get? k = some b) (hb : holds b' = holds b ∪ more) :
    (m.insert k b').facts holds = m.facts holds ∪ {f | f.1 = k ∧ f.2 ∈ more} := by
  ext ⟨k', a⟩
  by_cases hk : k' = k
  · subst hk
    rw [mem_facts (get?_insert_self m k' b'), hb, Set.mem_union, Set.mem_union, mem_facts h]
    simp
  · simp [facts, get?_insert_of_ne m hk, hk]

theorem finite_facts (finite : ∀ b, (holds b).Finite) (m : SortedMap κ β) :
    (m.facts holds).Finite := by
  have all : (⋃ e ∈ m.toList, ({e.1} ×ˢ holds e.2 : Set (κ × α))).Finite :=
    m.toList.finite_toSet.biUnion fun e _ => (Set.finite_singleton e.1).prod (finite e.2)
  refine all.subset fun (k, a) ⟨b, hb, ha⟩ => ?_
  exact Set.mem_biUnion (get?_eq_some_iff.mp hb) ⟨rfl, ha⟩

/-- Maps with the same keys are known by their facts, if values are known by what they hold. -/
theorem eq_of_facts (injective : Function.Injective holds) (h : m.HasKeys ks)
    (h' : m'.HasKeys ks) (facts_eq : m.facts holds = m'.facts holds) : m = m' := by
  refine SortedMap.ext fun k => ?_
  by_cases hk : k ∈ ks
  · obtain ⟨b, hb⟩ := h.exists_get? hk
    obtain ⟨b', hb'⟩ := h'.exists_get? hk
    have same : b = b' := injective (Set.ext fun a => by
      rw [← mem_facts hb, facts_eq, mem_facts hb'])
    rw [hb, hb', same]
  · rw [Option.not_isSome_iff_eq_none.mp fun hs => hk ((h k).mp hs),
      Option.not_isSome_iff_eq_none.mp fun hs => hk ((h' k).mp hs)]

end SortedMap

/-! ## Values of terminals with a mark -/

section

variable {T : Type} [Ordered T] {terminals terminals' : SortedSet T} {mark mark' : Bool}

/-- A set of terminals and, if it is marked, the end of the input. -/
def lookaheadSet (terminals : SortedSet T) (mark : Bool) : Set (Lookahead T) :=
  {a | (∃ t, a = some t ∧ t ∈ terminals) ∨ a = none ∧ mark = true}

@[simp] theorem some_mem_lookaheadSet {t : T} :
    some t ∈ lookaheadSet terminals mark ↔ t ∈ terminals := by
  simp [lookaheadSet]

@[simp] theorem none_mem_lookaheadSet : none ∈ lookaheadSet terminals mark ↔ mark = true := by
  simp [lookaheadSet]

theorem finite_lookaheadSet (terminals : SortedSet T) (mark : Bool) :
    (lookaheadSet terminals mark).Finite := by
  refine (none :: terminals.toList.map some).finite_toSet.subset fun a ha => ?_
  cases a with
  | none => exact List.mem_cons_self
  | some t =>
      have ht := SortedSet.mem_toList.mpr (some_mem_lookaheadSet.mp ha)
      exact List.mem_cons_of_mem _ (List.mem_map_of_mem ht)

theorem lookaheadSet_inj (h : lookaheadSet terminals mark = lookaheadSet terminals' mark') :
    terminals = terminals' ∧ mark = mark' := by
  have holds (a : Lookahead T) :
      a ∈ lookaheadSet terminals mark ↔ a ∈ lookaheadSet terminals' mark' := by rw [h]
  constructor
  · exact SortedSet.ext fun t => by simpa using holds (some t)
  · exact Bool.eq_iff_iff.mpr (by simpa using holds none)

end

end BottomUp
