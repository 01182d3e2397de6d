import BottomUp.Proofs.Collection
import Mathlib.Logic.Function.Iterate

/-!
# Closures by a work list

A closure is the least set that holds the given items and that is *closed*: with an item whose
dot is before a nonterminal it holds the first items of the productions of the nonterminal,
with all lookaheads that the item passes on.  So a closure holds what is given, it grows with
it, closing it again adds nothing, and items may be closed apart (`IsLeastClosure`).

It can be found with a queue of items.  A step takes the first item of the queue.  What that
brings in and what is not there yet is added to the set and to the end of the queue.  Four
things stay true (`Working`): the given items are in the set, nothing is in it that is not in
the closure, what is queued is in it, and so is what an item of it brings in unless that item
is still queued.  An item is queued when it is added, so each is taken once, and the queue is
empty after as many steps as the closure has items (`Working.iterate_work`).

Both kinds of closure are least, and both queues run empty (`closures_least`).
-/

namespace BottomUp

variable {T N V Λ : Type} [Ordered Λ] {g : Grammar T N V}

namespace ItemSet

/-! ## Least closed sets -/

/-- With every item whose dot is before a nonterminal a set holds the first items of the
productions of the nonterminal, with each lookahead that is passed on by what is behind the
nonterminal and by the lookahead of the item. -/
def ClosedUnder (g : Grammar T N V) (passesOn : List (Symbol T N) → Λ → Λ → Prop)
    (items : ItemSet Λ) : Prop :=
  ∀ i ∈ items, ∀ n rest, i.rest g = .nonterminal n :: rest →
    ∀ p production, g.productions[p]? = some production → production.lhs = n →
      ∀ b, passesOn rest i.ahead b → ⟨p, 0, b⟩ ∈ items

/-- An operation gives the least closed set that holds the given items. -/
structure IsLeastClosure (g : Grammar T N V) (passesOn : List (Symbol T N) → Λ → Λ → Prop)
    (close : ItemSet Λ → ItemSet Λ) : Prop where
  extensive (items : ItemSet Λ) : ∀ i ∈ items, i ∈ close items
  closed (items : ItemSet Λ) : ClosedUnder g passesOn (close items)
  least (items other : ItemSet Λ) : (∀ i ∈ items, i ∈ other) → ClosedUnder g passesOn other →
    ∀ i ∈ close items, i ∈ other

namespace IsLeastClosure

variable {passesOn : List (Symbol T N) → Λ → Λ → Prop} {close : ItemSet Λ → ItemSet Λ}
  {items other : ItemSet Λ}

theorem mono (h : IsLeastClosure g passesOn close) (hi : ∀ i ∈ items, i ∈ other) :
    ∀ i ∈ close items, i ∈ close other :=
  h.least items (close other) (fun i hm => h.extensive other i (hi i hm)) (h.closed other)

/-- A closed set is its own closure. -/
theorem eq_self (h : IsLeastClosure g passesOn close) (closed : ClosedUnder g passesOn items) :
    close items = items :=
  SortedSet.ext fun i => ⟨h.least items items (fun _ => id) closed i, h.extensive items i⟩

theorem idempotent (h : IsLeastClosure g passesOn close) (items : ItemSet Λ) :
    close (close items) = close items :=
  h.eq_self (h.closed items)

/-- Closed sets together are closed, since an item brings in others by itself. -/
theorem closedUnder_union (hi : ClosedUnder g passesOn items) (ho : ClosedUnder g passesOn other) :
    ClosedUnder g passesOn (items.union other) := by
  intro i hm n rest hr p production hp hn b hb
  refine SortedSet.mem_union.mpr ((SortedSet.mem_union.mp hm).imp ?_ ?_)
  · exact fun hm => hi i hm n rest hr p production hp hn b hb
  · exact fun hm => ho i hm n rest hr p production hp hn b hb

theorem union (h : IsLeastClosure g passesOn close) (items other : ItemSet Λ) :
    close (items.union other) = (close items).union (close other) := by
  refine SortedSet.ext fun i => ⟨?_, fun hi => ?_⟩
  · refine h.least _ _ (fun i hi => ?_)
      (closedUnder_union (h.closed items) (h.closed other)) i
    exact SortedSet.mem_union.mpr
      ((SortedSet.mem_union.mp hi).imp (h.extensive items i) (h.extensive other i))
  · rcases SortedSet.mem_union.mp hi with hi | hi
    · exact h.mono (fun i hi => SortedSet.mem_union.mpr (.inl hi)) i hi
    · exact h.mono (fun i hi => SortedSet.mem_union.mpr (.inr hi)) i hi

end IsLeastClosure

variable [Ordered N]

/-- The closure by a confined rule is least. -/
theorem isLeastClosure_closure {rule : LookaheadRule g Λ}
    {passesOn : List (Symbol T N) → Λ → Λ → Prop} (hc : rule.Confined)
    (passes : ∀ rest a b, b ∈ rule.inherit rest a ↔ passesOn rest a b) :
    IsLeastClosure g passesOn (closure rule) where
  extensive _ _ := mem_closure_of_mem hc
  closed items i hi n rest hr p production hp hn b hb :=
    mem_closure_of_rest hc hi hr ((passes _ _ _).mpr hb)
      (Grammar.mem_alternatives.mpr ⟨production, hp, hn⟩)
  least items other given closed i hi := by
    replace hi := (mem_closure_iff hc).mp hi
    induction hi with
    | given h => exact given _ h
    | @meet i n rest b p _ hr hb hp ih =>
        obtain ⟨production, hp, hn⟩ := Grammar.mem_alternatives.mp hp
        exact closed i ih n rest hr p production hp hn b ((passes _ _ _).mp hb)

end ItemSet

/-! ## A queue of items -/

variable [Ordered N]

/-- What an item brings in: for each production of the nonterminal at its dot and each
lookahead that it passes on the first item. -/
def Item.brings (rule : LookaheadRule g Λ) (i : Item Λ) : List (Item Λ) :=
  match i.rest g with
  | .nonterminal n :: rest =>
      (g.alternatives n).flatMap fun p => (rule.inherit rest i.ahead).map fun b => ⟨p, 0, b⟩
  | _ => []

omit [Ordered Λ] in
theorem Item.mem_brings {rule : LookaheadRule g Λ} {i j : Item Λ} :
    j ∈ i.brings rule ↔ ∃ n rest, i.rest g = .nonterminal n :: rest ∧
      ∃ p ∈ g.alternatives n, ∃ b ∈ rule.inherit rest i.ahead, ⟨p, 0, b⟩ = j := by
  rw [brings]
  split
  · rename_i n rest h
    simp only [h, List.mem_flatMap, List.mem_map, List.cons.injEq, Symbol.nonterminal.injEq]
    constructor
    · intro hj
      exact ⟨n, rest, ⟨rfl, rfl⟩, hj⟩
    · rintro ⟨_, _, ⟨rfl, rfl⟩, hj⟩
      exact hj
  · rename_i h
    constructor
    · exact fun hj => absurd hj List.not_mem_nil
    · rintro ⟨n, rest, hr, _⟩
      exact absurd hr (h n rest)

namespace ItemSet

/-- The first item of the queue is taken, and what it brings in anew is added and queued. -/
def work (rule : LookaheadRule g Λ) : List (Item Λ) × ItemSet Λ → List (Item Λ) × ItemSet Λ
  | ([], done) => ([], done)
  | (i :: queue, done) =>
      let new := fresh done (i.brings rule)
      (queue ++ new, done.insertAll new)

/-- What steps keep true of a queue and of what is done. -/
structure Working (rule : LookaheadRule g Λ) (items : ItemSet Λ)
    (s : List (Item Λ) × ItemSet Λ) : Prop where
  given : ∀ i ∈ items, i ∈ s.2
  within : ∀ i ∈ s.2, i ∈ closure rule items
  queued : ∀ i ∈ s.1, i ∈ s.2
  met : ∀ i ∈ s.2, i ∈ s.1 ∨ ∀ j ∈ i.brings rule, j ∈ s.2

namespace Working

variable {rule : LookaheadRule g Λ} {items done : ItemSet Λ} {queue : List (Item Λ)}

theorem initial (hc : rule.Confined) (items : ItemSet Λ) :
    Working rule items (items.toList, items) where
  given _ := id
  within _ := mem_closure_of_mem hc
  queued _ := SortedSet.mem_toList.mp
  met _ hi := .inl (SortedSet.mem_toList.mpr hi)

/-- What is there and what an item of it brings in is there after the item is taken. -/
theorem mem_insertAll_brings {i j : Item Λ} (h : j ∈ i.brings rule) :
    j ∈ done.insertAll (fresh done (i.brings rule)) := by
  rw [SortedSet.mem_insertAll, mem_fresh]
  by_cases hj : j ∈ done
  · exact .inr hj
  · exact .inl ⟨h, hj⟩

theorem step (hc : rule.Confined) {s : List (Item Λ) × ItemSet Λ} (h : Working rule items s) :
    Working rule items (work rule s) := by
  obtain ⟨queue, done⟩ := s
  cases queue with
  | nil => exact h
  | cons i queue =>
      obtain ⟨given, within, queued, met⟩ := h
      have grows (j : Item Λ) (hj : j ∈ done) :
          j ∈ done.insertAll (fresh done (i.brings rule)) :=
        SortedSet.mem_insertAll.mpr (.inr hj)
      have taken := within i (queued i List.mem_cons_self)
      refine ⟨fun j hj => grows j (given j hj), fun j hj => ?_, fun j hj => ?_, fun j hj => ?_⟩
      · rcases SortedSet.mem_insertAll.mp hj with hj | hj
        · obtain ⟨n, rest, hr, p, hp, b, hb, rfl⟩ := Item.mem_brings.mp (mem_fresh.mp hj).1
          exact mem_closure_of_rest hc taken hr hb hp
        · exact within j hj
      · rcases List.mem_append.mp hj with hj | hj
        · exact grows j (queued j (List.mem_cons_of_mem i hj))
        · exact SortedSet.mem_insertAll.mpr (.inl hj)
      · rcases SortedSet.mem_insertAll.mp hj with hj | hj
        · exact .inl (List.mem_append_right queue hj)
        · rcases met j hj with hq | hm
          · rcases List.mem_cons.mp hq with rfl | hq
            · exact .inr fun k hk => mem_insertAll_brings hk
            · exact .inl (List.mem_append_left _ hq)
          · exact .inr fun k hk => grows k (hm k hk)

theorem iterate (hc : rule.Confined) {s : List (Item Λ) × ItemSet Λ} (h : Working rule items s)
    (steps : Nat) : Working rule items ((work rule)^[steps] s) := by
  induction steps with
  | zero => exact h
  | succ steps ih =>
      rw [Function.iterate_succ_apply']
      exact ih.step hc

/-- When the queue is empty, the closure is done. -/
theorem eq_closure (hc : rule.Confined) (h : Working rule items ([], done)) :
    done = closure rule items := by
  refine SortedSet.ext fun i => ⟨h.within i, fun hi => ?_⟩
  replace hi := (mem_closure_iff hc).mp hi
  induction hi with
  | given hi => exact h.given _ hi
  | @meet i n rest b p _ hr hb hp ih =>
      have all := (h.met i ih).resolve_left List.not_mem_nil
      exact all _ (Item.mem_brings.mpr ⟨n, rest, hr, p, hp, b, hb, rfl⟩)

theorem size_le (h : Working rule items (queue, done)) : done.size ≤ (closure rule items).size := by
  rw [← SortedSet.length_toList, ← SortedSet.length_toList]
  refine length_le_of_nodup_of_mem done.nodup_toList fun i hi => ?_
  exact SortedSet.mem_toList.mpr (h.within i (SortedSet.mem_toList.mp hi))

/-- Each step takes one item that is done, so the queue is empty after as many steps as there
are items to be taken. -/
theorem iterate_work (hc : rule.Confined) {steps : Nat} : ∀ {queue : List (Item Λ)}
    {done : ItemSet Λ}, Working rule items (queue, done) →
      steps + done.size = (closure rule items).size + queue.length →
        (work rule)^[steps] (queue, done) = ([], closure rule items) := by
  induction steps with
  | zero =>
      intro queue done h count
      have := h.size_le
      obtain rfl : queue = [] := List.length_eq_zero_iff.mp (by omega)
      rw [Function.iterate_zero_apply, h.eq_closure hc]
  | succ steps ih =>
      intro queue done h count
      cases queue with
      | nil =>
          rw [← h.eq_closure hc, List.length_nil] at count
          omega
      | cons i queue =>
          have larger : (done.insertAll (fresh done (i.brings rule))).size =
              done.size + (fresh done (i.brings rule)).length := size_insertAll_fresh
          refine ih (h.step hc) ?_
          rw [List.length_append]
          rw [List.length_cons] at count
          omega

end Working

/-! ## The closures of a grammar -/

theorem exists_of_mem_closure {rule : LookaheadRule g Λ} {items : ItemSet Λ}
    (hc : rule.Confined) (h : items.exists? g = true) : (closure rule items).exists? g = true := by
  refine List.all_eq_true.mpr fun i hi => ?_
  replace hi := (mem_closure_iff hc).mp (SortedSet.mem_toList.mp hi)
  cases hi with
  | given hi => exact List.all_eq_true.mp h i (SortedSet.mem_toList.mpr hi)
  | meet _ _ _ hp =>
      obtain ⟨_, hp, _⟩ := Grammar.mem_alternatives.mp hp
      exact decide_eq_true (List.getElem?_eq_some_iff.mp hp).1

/-- What there is to say of the closures by a lookahead rule. -/
structure Closing (rule : LookaheadRule g Λ) (passesOn : List (Symbol T N) → Λ → Λ → Prop) :
    Prop where
  /-- The queue of the given items is empty after one step for each item of the closure, and
  then the closure is done. -/
  ends (items : ItemSet Λ) : (work rule)^[(closure rule items).size] (items.toList, items) =
    ([], closure rule items)
  /-- No queue holds an item without a production if none is given. -/
  exist (items : ItemSet Λ) : items.exists? g = true → ∀ steps,
    ∀ i ∈ ((work rule)^[steps] (items.toList, items)).1, i.exists? g = true
  /-- The closure is the least closed set that holds the given items. -/
  isLeast : IsLeastClosure g passesOn (closure rule)
  /-- It holds more, the more is given. -/
  mono (items other : ItemSet Λ) : (∀ i ∈ items, i ∈ other) →
    ∀ i ∈ closure rule items, i ∈ closure rule other
  /-- A closure is its own closure. -/
  idempotent (items : ItemSet Λ) : closure rule (closure rule items) = closure rule items
  /-- Items may be closed apart. -/
  union (items other : ItemSet Λ) :
    closure rule (items.union other) = (closure rule items).union (closure rule other)

theorem closing {rule : LookaheadRule g Λ} {passesOn : List (Symbol T N) → Λ → Λ → Prop}
    (hc : rule.Confined) (passes : ∀ rest a b, b ∈ rule.inherit rest a ↔ passesOn rest a b) :
    Closing rule passesOn where
  ends items := (Working.initial hc items).iterate_work hc (by rw [SortedSet.length_toList])
  exist items h steps i hi := by
    have working := (Working.initial hc items).iterate hc steps
    have within := working.within i (working.queued i hi)
    exact List.all_eq_true.mp (exists_of_mem_closure hc h) i (SortedSet.mem_toList.mpr within)
  isLeast := isLeastClosure_closure hc passes
  mono _ _ := (isLeastClosure_closure hc passes).mono
  idempotent := (isLeastClosure_closure hc passes).idempotent
  union := (isLeastClosure_closure hc passes).union

/-- For every grammar: closures are found by a queue that runs empty, and they are least.  An
LR(0) item whose dot is before a nonterminal brings in the first items of the productions of
the nonterminal.  An LR(1) item does so with each lookahead that what is behind the
nonterminal can begin with in front of the lookahead of the item. -/
theorem closures_least [Ordered T] (g : Grammar T N V) :
    Closing (.lr0 g) (fun _ _ _ => True) ∧
      Closing (.lr1 g) fun rest a b => b ∈ (FirstSets.of g).ofSequence rest a := by
  refine ⟨closing LookaheadRule.confined_lr0 fun _ _ b => ?_,
    closing LookaheadRule.confined_lr1 fun _ _ _ => SortedSet.mem_toList⟩
  exact iff_of_true (List.mem_singleton.mpr rfl) trivial

end ItemSet

end BottomUp
