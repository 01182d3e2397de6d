import BottomUp.Proofs.Canonical
import BottomUp.Proofs.Leading

/-!
# Grammars that agree on some nonterminals

A grammar may be extended by productions of other nonterminals (`Grammar.Extends`).  Those
*inside* are the nonterminals that the extension leaves alone, and what is on their
right-hand sides is inside as well.  A string of inside symbols derives the same in both
grammars (`Extends.derives_iff`), so the same can begin it.

Items of inside productions demand inside nonterminals only.  So item sets of such items
have the same closures, the same exits and the same successors in both grammars, and what
is built from them is the same automaton (`Machine.build_eq_of_extends`).  The search for
the states may have more layers in one grammar than in the other, which makes no difference
once it misses nothing (`reach_eq_of_closed`).
-/

namespace BottomUp

variable {T N V Λ : Type}

/-! ## Searches -/

section Search

variable {α : Type} [Ordered α] {succ succ' : α → List α}

omit [Ordered α] in
/-- What holds of the seeds and goes on to successors holds of all that is generated. -/
theorem Generated.of_closed {P : α → Prop} {seeds : List α} {a : α}
    (h : Generated succ seeds a) (hs : ∀ a ∈ seeds, P a) (closed : ∀ a, P a → ∀ b ∈ succ a, P b) :
    P a := by
  induction h with
  | seed hm => exact hs _ hm
  | step _ hb ih => exact closed _ ih _ hb

/-- Two searches are the same if their successor functions agree on all that comes up. -/
theorem explore_congr {P : α → Prop} (agree : ∀ a, P a → succ a = succ' a)
    (closed : ∀ a, P a → ∀ b ∈ succ a, P b) :
    ∀ (layers : Nat) {found : SortedSet α} {latest : List α}, (∀ a ∈ latest, P a) →
      explore succ layers found latest = explore succ' layers found latest
  | 0, _, _, _ => rfl
  | layers + 1, found, latest, h => by
      have next : latest.flatMap succ = latest.flatMap succ' :=
        List.flatMap_congr fun a ha => agree a (h a ha)
      have inside : ∀ b ∈ fresh found (latest.flatMap succ), P b := by
        intro b hb
        obtain ⟨a, ha, hb⟩ := List.mem_flatMap.mp (mem_fresh.mp hb).1
        exact closed a (h a ha) b hb
      rw [explore, explore, explore_congr agree closed layers inside, next]

theorem reach_congr {P : α → Prop} (agree : ∀ a, P a → succ a = succ' a)
    (closed : ∀ a, P a → ∀ b ∈ succ a, P b) (layers : Nat) {seeds : List α}
    (h : ∀ a ∈ seeds, P a) : reach succ layers seeds = reach succ' layers seeds :=
  explore_congr agree closed layers fun a ha => h a (mem_fresh.mp ha).1

/-- A search that misses nothing finds no more in further layers. -/
theorem explore_add_of_closed (more : Nat) :
    ∀ (layers : Nat) {found : SortedSet α} {latest : List α}, (∀ a ∈ latest, a ∈ found) →
    (∀ a ∈ explore succ layers found latest, ∀ b ∈ succ a,
      b ∈ found ∨ b ∈ explore succ layers found latest) →
    explore succ (layers + more) found latest = explore succ layers found latest
  | 0, found, latest, hl, closed => by
      have nothing : fresh found (latest.flatMap succ) = [] := by
        refine fresh_eq_nil fun b hb => ?_
        obtain ⟨a, ha, hb⟩ := List.mem_flatMap.mp hb
        exact (closed a ha b hb).elim id (hl b)
      rw [Nat.zero_add]
      cases more with
      | zero => rfl
      | succ more => simp [explore, nothing]
  | layers + 1, found, latest, hl, closed => by
      rw [Nat.add_right_comm, explore, explore]
      rw [explore] at closed
      split
      · rfl
      · rename_i hempty
        simp only [if_neg hempty] at closed
        have next : ∀ b ∈ fresh found (latest.flatMap succ),
            b ∈ found.insertAll (fresh found (latest.flatMap succ)) :=
          fun b hb => SortedSet.mem_insertAll.mpr (.inl hb)
        rw [explore_add_of_closed more layers next fun a ha b hb => ?_]
        rcases closed a (List.mem_append_right _ ha) b hb with hb | hb
        · exact .inl (SortedSet.mem_insertAll.mpr (.inr hb))
        · rcases List.mem_append.mp hb with hb | hb
          · exact .inl (SortedSet.mem_insertAll.mpr (.inr (hl b hb)))
          · exact .inr hb

/-- Searches that miss nothing find the same, however many layers they have. -/
theorem reach_eq_of_closed {layers layers' : Nat} {seeds : List α}
    (closed : ∀ a ∈ reach succ layers seeds, ∀ b ∈ succ a, b ∈ reach succ layers seeds)
    (closed' : ∀ a ∈ reach succ layers' seeds, ∀ b ∈ succ a, b ∈ reach succ layers' seeds) :
    reach succ layers seeds = reach succ layers' seeds := by
  have more : ∀ {few many : Nat}, few ≤ many →
      (∀ a ∈ reach succ few seeds, ∀ b ∈ succ a, b ∈ reach succ few seeds) →
      reach succ many seeds = reach succ few seeds := by
    intro few many hle closed
    obtain ⟨more, rfl⟩ := Nat.exists_eq_add_of_le hle
    exact explore_add_of_closed more few (fun _ h => SortedSet.mem_ofList.mpr h)
      fun a ha b hb => .inr (closed a ha b hb)
  rcases Nat.le_total layers layers' with h | h
  · exact (more h closed).symm
  · exact more h closed'

end Search

/-! ## Extensions -/

/-- All nonterminals of a string are inside. -/
def Symbol.AllInside (inside : N → Prop) (symbols : List (Symbol T N)) : Prop :=
  ∀ n, .nonterminal n ∈ symbols → inside n

namespace Grammar

/-- The second grammar has the productions of the first and further ones of nonterminals
that are not inside.  Right-hand sides of inside nonterminals have no others. -/
structure Extends [DecidableEq N] (g g' : Grammar T N V) (inside : N → Prop) : Prop where
  productions : ∃ further, g'.productions = g.productions ++ further ∧
    ∀ p ∈ further, ¬ inside p.lhs
  nonterminals {n : N} : n ∈ g.nonterminals → n ∈ g'.nonterminals
  precedence : g'.precedence = g.precedence
  closed {p : Production T N V} : p ∈ g.productions → inside p.lhs →
    Symbol.AllInside inside p.rhs

namespace Extends

variable [Ordered N] {g g' : Grammar T N V} {inside : N → Prop} {p : Production T N V}
  {i : Nat} {n : N} {a b : List (Symbol T N)}

theorem mem (h : g.Extends g' inside) (hp : p ∈ g.productions) : p ∈ g'.productions := by
  obtain ⟨further, he, _⟩ := h.productions
  exact he ▸ List.mem_append_left _ hp

theorem mem_of_inside (h : g.Extends g' inside) (hp : p ∈ g'.productions) (hi : inside p.lhs) :
    p ∈ g.productions := by
  obtain ⟨further, he, outside⟩ := h.productions
  rw [he] at hp
  exact (List.mem_append.mp hp).resolve_right fun hf => outside p hf hi

theorem getElem? (h : g.Extends g' inside) (hp : g.productions[i]? = some p) :
    g'.productions[i]? = some p := by
  obtain ⟨further, he, _⟩ := h.productions
  rw [he, List.getElem?_append_left (List.getElem?_eq_some_iff.mp hp).1, hp]

theorem rhs_eq (h : g.Extends g' inside) (hp : g.productions[i]? = some p) :
    g'.rhs i = g.rhs i := by
  rw [rhs_of_getElem? hp, rhs_of_getElem? (h.getElem? hp)]

theorem alternatives_eq (h : g.Extends g' inside) (hn : inside n) :
    g'.alternatives n = g.alternatives n := by
  obtain ⟨further, he, outside⟩ := h.productions
  rw [alternatives, numbered, he, List.zipIdx_append, List.map_append, List.filterMap_append]
  refine List.append_right_eq_self.mpr ?_
  rw [List.filterMap_map]
  refine List.filterMap_eq_nil_iff.mpr fun entry hm => ?_
  have hf : entry.1 ∈ further := List.fst_mem_of_mem_zipIdx hm
  exact if_neg fun hl : entry.1.lhs = n => outside entry.1 hf (hl ▸ hn)

/-! ## Derivations -/

theorem rewrites (h : g.Extends g' inside) (hr : g.Rewrites a b) : g'.Rewrites a b := by
  cases hr with
  | apply left right hp => exact .apply left right (h.mem hp)

/-- What is inside is rewritten by productions of the first grammar, to what is inside. -/
theorem rewrites_of_inside (h : g.Extends g' inside) (ha : Symbol.AllInside inside a)
    (hr : g'.Rewrites a b) : g.Rewrites a b ∧ Symbol.AllInside inside b := by
  cases hr with
  | @apply p left right hp =>
      have hl : inside p.lhs := ha p.lhs (by simp)
      have hp := h.mem_of_inside hp hl
      refine ⟨.apply left right hp, fun n hn => ?_⟩
      rw [List.mem_append, List.mem_append] at hn
      rcases hn with (hn | hn) | hn
      · exact ha n (by simp [hn])
      · exact h.closed hp hl n hn
      · exact ha n (by simp [hn])

theorem derives (h : g.Extends g' inside) (hd : g.Derives a b) : g'.Derives a b := by
  induction hd with
  | refl => exact .refl
  | tail _ hr ih => exact ih.tail (h.rewrites hr)

theorem derives_of_inside (h : g.Extends g' inside) (ha : Symbol.AllInside inside a)
    (hd : g'.Derives a b) : g.Derives a b ∧ Symbol.AllInside inside b := by
  induction hd with
  | refl => exact ⟨.refl, ha⟩
  | tail _ hr ih =>
      obtain ⟨hr, hb⟩ := h.rewrites_of_inside ih.2 hr
      exact ⟨ih.1.tail hr, hb⟩

/-- What is inside derives the same in both grammars. -/
theorem derives_iff (h : g.Extends g' inside) (ha : Symbol.AllInside inside a) :
    g'.Derives a b ↔ g.Derives a b :=
  ⟨fun hd => (h.derives_of_inside ha hd).1, h.derives⟩

/-! ## What begins a string -/

variable [Ordered T] {t : T}

theorem vanishes (h : g.Extends g' inside) (hv : (FirstSets.of g).Vanishes a) :
    (FirstSets.of g').Vanishes a :=
  FirstSets.vanishes_iff.mpr (h.derives (FirstSets.vanishes_iff.mp hv))

theorem vanishes_iff (h : g.Extends g' inside) (ha : Symbol.AllInside inside a) :
    (FirstSets.of g').Vanishes a ↔ (FirstSets.of g).Vanishes a := by
  rw [FirstSets.vanishes_iff, FirstSets.vanishes_iff, h.derives_iff ha]

theorem begins (h : g.Extends g' inside) (hb : (FirstSets.of g).Begins t a) :
    (FirstSets.of g').Begins t a := by
  obtain ⟨rest, hd⟩ := FirstSets.begins_iff.mp hb
  exact FirstSets.begins_iff.mpr ⟨rest, h.derives hd⟩

theorem begins_iff (h : g.Extends g' inside) (ha : Symbol.AllInside inside a) :
    (FirstSets.of g').Begins t a ↔ (FirstSets.of g).Begins t a := by
  rw [FirstSets.begins_iff, FirstSets.begins_iff]
  exact exists_congr fun _ => h.derives_iff ha

/-- The same can begin what is inside. -/
theorem ofSequence_eq (h : g.Extends g' inside) (ha : Symbol.AllInside inside a)
    (ahead : Lookahead T) :
    (FirstSets.of g').ofSequence a ahead = (FirstSets.of g).ofSequence a ahead := by
  refine SortedSet.ext fun b => ?_
  simp only [FirstSets.mem_ofSequence, h.begins_iff ha, h.vanishes_iff ha]

end Extends

end Grammar

/-! ## Items -/

/-- The item is of a production with an inside left-hand side. -/
def Item.Inside (g : Grammar T N V) (inside : N → Prop) (i : Item Λ) : Prop :=
  ∃ p, g.productions[i.production]? = some p ∧ inside p.lhs

/-- All items of a set are inside. -/
def ItemSet.Inside [Ordered Λ] (g : Grammar T N V) (inside : N → Prop) (items : ItemSet Λ) :
    Prop :=
  ∀ i ∈ items, i.Inside g inside

/-- Two lookahead rules pass on the same behind what is inside. -/
structure LookaheadRule.Agrees [Ordered N] {g g' : Grammar T N V} (rule : LookaheadRule g Λ)
    (rule' : LookaheadRule g' Λ) (inside : N → Prop) : Prop where
  initial : rule'.initial = rule.initial
  inherit {rest : List (Symbol T N)} : Symbol.AllInside inside rest →
    ∀ a, rule'.inherit rest a = rule.inherit rest a
  confined : rule.Confined
  confined' : rule'.Confined

section

variable [Ordered N] {g g' : Grammar T N V} {inside : N → Prop}

theorem LookaheadRule.agrees_lr0 (g g' : Grammar T N V) (inside : N → Prop) :
    (lr0 g).Agrees (lr0 g') inside where
  initial := rfl
  inherit _ _ := rfl
  confined := confined_lr0
  confined' := confined_lr0

theorem LookaheadRule.agrees_lr1 [Ordered T] (h : g.Extends g' inside) :
    (lr1 g).Agrees (lr1 g') inside where
  initial := rfl
  inherit hr a := congrArg SortedSet.toList (h.ofSequence_eq hr a)
  confined := confined_lr1
  confined' := confined_lr1

namespace Item.Inside

variable {i : Item Λ}

theorem rest_eq (hi : i.Inside g inside) (h : g.Extends g' inside) : i.rest g' = i.rest g := by
  obtain ⟨p, hp, _⟩ := hi
  rw [rest, rest, h.rhs_eq hp]

theorem next?_eq (hi : i.Inside g inside) (h : g.Extends g' inside) : i.next? g' = i.next? g := by
  rw [next?, next?, hi.rest_eq h]

theorem allInside_rest (hi : i.Inside g inside) (h : g.Extends g' inside) :
    Symbol.AllInside inside (i.rest g) := by
  obtain ⟨p, hp, hl⟩ := hi
  intro n hn
  rw [rest, Grammar.rhs_of_getElem? hp] at hn
  exact h.closed (List.mem_of_getElem? hp) hl n (List.mem_of_mem_drop hn)

end Item.Inside

namespace ItemSet

variable [Ordered Λ] {rule : LookaheadRule g Λ} {rule' : LookaheadRule g' Λ}
  {items kernel : ItemSet Λ} {i : Item Λ}

/-- What inside items demand is inside. -/
theorem Inside.of_closes (hi : items.Inside g inside) (h : g.Extends g' inside)
    (hc : Closes rule items i) : i.Inside g inside := by
  induction hc with
  | given hm => exact hi _ hm
  | @meet i n rest b p _ hrest _ hp ih =>
      have all := ih.allInside_rest h
      rw [hrest] at all
      obtain ⟨production, hg, rfl⟩ := Grammar.mem_alternatives.mp hp
      exact ⟨production, hg, all production.lhs List.mem_cons_self⟩

/-- Inside items demand the same in both grammars. -/
theorem Inside.closes_iff (hi : items.Inside g inside) (h : g.Extends g' inside)
    (hr : rule.Agrees rule' inside) : Closes rule' items i ↔ Closes rule items i := by
  constructor
  · intro hc
    induction hc with
    | given hm => exact .given hm
    | @meet i n rest b p _ hrest hb hp ih =>
        have inner := hi.of_closes h ih
        rw [inner.rest_eq h] at hrest
        have all := inner.allInside_rest h
        rw [hrest] at all
        rw [h.alternatives_eq (all n List.mem_cons_self)] at hp
        rw [hr.inherit fun m hm => all m (List.mem_cons_of_mem _ hm)] at hb
        exact .meet ih hrest hb hp
  · intro hc
    induction hc with
    | given hm => exact .given hm
    | @meet i n rest b p hc hrest hb hp ih =>
        have inner := hi.of_closes h hc
        have all := inner.allInside_rest h
        rw [hrest] at all
        rw [← h.alternatives_eq (all n List.mem_cons_self)] at hp
        rw [← hr.inherit fun m hm => all m (List.mem_cons_of_mem _ hm)] at hb
        exact .meet ih ((inner.rest_eq h).trans hrest) hb hp

theorem Inside.closure (hi : items.Inside g inside) (h : g.Extends g' inside)
    (hr : rule.Agrees rule' inside) : (closure rule items).Inside g inside :=
  fun _ hm => hi.of_closes h ((mem_closure_iff hr.confined).mp hm)

theorem Inside.closure_eq (hi : items.Inside g inside) (h : g.Extends g' inside)
    (hr : rule.Agrees rule' inside) : ItemSet.closure rule' items = ItemSet.closure rule items := by
  refine SortedSet.ext fun i => ?_
  rw [mem_closure_iff hr.confined', mem_closure_iff hr.confined, hi.closes_iff h hr]

variable [Ordered T]

theorem Inside.advancePast (hi : items.Inside g inside) (s : Symbol T N) :
    (advancePast g items s).Inside g inside := by
  intro i hm
  obtain ⟨j, hj, _, rfl⟩ := mem_advancePast.mp hm
  exact hi j hj

theorem Inside.advancePast_eq (hi : items.Inside g inside) (h : g.Extends g' inside)
    (s : Symbol T N) : ItemSet.advancePast g' items s = ItemSet.advancePast g items s := by
  refine SortedSet.ext fun i => ?_
  rw [mem_advancePast, mem_advancePast]
  refine exists_congr fun j => and_congr_right fun hj => ?_
  rw [(hi j hj).next?_eq h]

theorem Inside.nextSymbols_eq (hi : items.Inside g inside) (h : g.Extends g' inside) :
    nextSymbols g' items = nextSymbols g items := by
  refine SortedSet.ext fun s => ?_
  rw [mem_nextSymbols, mem_nextSymbols]
  refine exists_congr fun j => and_congr_right fun hj => ?_
  rw [(hi j hj).next?_eq h]

omit [Ordered T] in
theorem Inside.kernelOf_eq (hi : items.Inside g inside) (h : g.Extends g' inside)
    (hr : rule.Agrees rule' inside) : kernelOf rule' items = kernelOf rule items := by
  have read : ItemSet.Inside g inside (items.filter fun i => 0 < i.dot) :=
    fun i hm => hi i (SortedSet.mem_filter.mp hm).1
  rw [kernelOf, kernelOf, read.closure_eq h hr]

theorem Inside.nextKernels_eq (hi : items.Inside g inside) (h : g.Extends g' inside)
    (hr : rule.Agrees rule' inside) : nextKernels rule' items = nextKernels rule items := by
  have closed := hi.closure h hr
  rw [ItemSet.nextKernels_eq, ItemSet.nextKernels_eq, hi.closure_eq h hr,
    closed.nextSymbols_eq h]
  exact List.map_congr_left fun s _ => closed.advancePast_eq h s

theorem Inside.of_nextKernels (hi : items.Inside g inside) (h : g.Extends g' inside)
    (hr : rule.Agrees rule' inside) {next : ItemSet Λ} (hn : next ∈ nextKernels rule items) :
    next.Inside g inside := by
  obtain ⟨s, _, rfl⟩ := mem_nextKernels.mp hn
  exact (hi.closure h hr).advancePast s

/-- An inside kernel leads to the same kernels in both grammars. -/
theorem Inside.kernels_eq (hi : kernel.Inside g inside) (h : g.Extends g' inside)
    (hr : rule.Agrees rule' inside) (hk : kernel.isEmpty = false) :
    kernels rule' kernel = kernels rule kernel := by
  have closed := nextKernels_mem_kernels hr.confined hk
  have closed' := nextKernels_mem_kernels hr.confined' hk
  have first : (kernelOf rule (ItemSet.closure rule kernel)).Inside g inside :=
    fun i hm => hi.closure h hr i (kernelOf_subset hm)
  have seed : kernelOf rule' (ItemSet.closure rule' kernel) =
      kernelOf rule (ItemSet.closure rule kernel) := by
    rw [hi.closure_eq h hr, (hi.closure h hr).kernelOf_eq h hr]
  rw [ItemSet.kernels_eq hk] at closed closed' ⊢
  rw [ItemSet.kernels_eq hk]
  rw [seed] at closed' ⊢
  generalize kernelOf rule (ItemSet.closure rule kernel) = own at first closed closed' ⊢
  generalize Nat.pow 2 (itemBound rule kernel) = layers at closed ⊢
  generalize Nat.pow 2 (itemBound rule' kernel) = layers' at closed' ⊢
  have found : ∀ own' ∈ reach (nextKernels rule) layers' [own], own'.Inside g inside := fun _ hm =>
    (generated_of_mem_reach hm).of_closed (fun _ ho => List.mem_singleton.mp ho ▸ first)
      fun _ ho _ hn => ho.of_nextKernels h hr hn
  have same : reach (nextKernels rule') layers' [own] = reach (nextKernels rule) layers' [own] :=
    (reach_congr (P := ItemSet.Inside g inside) (fun _ ho => (ho.nextKernels_eq h hr).symm)
      (fun _ ho _ hn => ho.of_nextKernels h hr hn) layers'
      fun _ ho => List.mem_singleton.mp ho ▸ first).symm
  rw [same] at closed' ⊢
  refine reach_eq_of_closed (fun own' hm next hn => closed' own' hm next ?_) closed
  rwa [(found own' hm).nextKernels_eq h hr]

end ItemSet

/-! ## Automata -/

namespace Machine

open ItemSet

variable [Ordered T] [Ordered Λ] {rule : LookaheadRule g Λ} {rule' : LookaheadRule g' Λ}
  {kernel : ItemSet Λ}

theorem inside_of_mem_kernels (hi : kernel.Inside g inside) (h : g.Extends g' inside)
    (hr : rule.Agrees rule' inside) (hk : kernel.isEmpty = false) {own : ItemSet Λ}
    (hm : own ∈ kernels rule kernel) : own.Inside g inside := by
  refine ((mem_kernels hr.confined hk).mp hm).of_closed (fun own ho i hm => ?_)
    fun _ ho _ hn => ho.of_nextKernels h hr hn
  exact hi.closure h hr i (kernelOf_subset (List.mem_singleton.mp ho ▸ hm))

/-- The automaton of an inside kernel is the same in both grammars. -/
theorem build_eq_of_extends (hi : kernel.Inside g inside) (h : g.Extends g' inside)
    (hr : rule.Agrees rule' inside) (hk : kernel.isEmpty = false) :
    build rule' kernel = build rule kernel := by
  have states : (build rule' kernel).states = (build rule kernel).states := by
    rw [states_build, states_build, hi.kernels_eq h hr hk]
    refine List.map_congr_left fun own hm => ?_
    have inner := inside_of_mem_kernels hi h hr hk hm
    have closed := inner.closure h hr
    rw [stateOf, stateOf, inner.closure_eq h hr, closed.nextSymbols_eq h]
    simp only [closed.advancePast_eq h]
  generalize build rule' kernel = machine' at states
  generalize build rule kernel = machine at states
  cases machine
  cases machine'
  cases states
  rfl

/-- The automaton of an inside kernel has inside items. -/
theorem inside_of_mem_items (hi : kernel.Inside g inside) (h : g.Extends g' inside)
    (hr : rule.Agrees rule' inside) (hk : kernel.isEmpty = false) {i : Nat} {item : Item Λ}
    (hm : item ∈ (build rule kernel).items i) : item.Inside g inside := by
  obtain ⟨own, ho⟩ := exists_kernel_of_lt (lt_of_mem_items hm)
  rw [items_build ho] at hm
  exact (inside_of_mem_kernels hi h hr hk (List.mem_of_getElem? ho)).closure h hr item hm

end Machine

end

end BottomUp
