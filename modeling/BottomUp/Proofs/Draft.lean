import BottomUp.Proofs.Collection
import BottomUp.Table.Compile

/-!
# What a draft holds

A draft holds the offers that were made to it (`Draft.Holds`): the shift of a cell is the
one that was offered, its reductions are those that were offered and not vetoed, and there
is a cell wherever there was an offer.  One more offer keeps this, whatever the order
(`Holds.offer`).  The draft of an automaton comes about whatever the policy is, because
transitions are functional, and it holds just the transitions and the completed items
(`Machine.exists_draft`).
-/

namespace BottomUp

variable {T N V Λ : Type} [Ordered T] [Ordered N] [Ordered Λ]

namespace Offer

/-- The state of the cell that an offer is for. -/
def state : Offer T → Nat
  | shift state _ _ => state
  | reduce state _ _ => state

/-- The lookahead of the cell that an offer is for. -/
def ahead : Offer T → Lookahead T
  | shift _ t _ => some t
  | reduce _ ahead _ => ahead

end Offer

namespace Transition

/-- A transition on a terminal is the offer of a shift. -/
def Offers (t : Transition T N) (o : Offer T) : Prop :=
  ∃ a, t.symbol = .terminal a ∧ o = .shift t.source a t.target

end Transition

/-- The cell of a state on a lookahead holds the offers that were made for it. -/
structure Cell.Holds (policy : Policy T) (start : Nat) (made : Offer T → Prop) (i : Nat)
    (a : Lookahead T) (cell : Cell) : Prop where
  shift {j : Nat} : cell.shift? = some j ↔ ∃ t, a = some t ∧ made (.shift i t j)
  reduce {p : Nat} : p ∈ cell.reduces ↔
    made (.reduce i a p) ∧ ¬ (p = start ∧ a = none) ∧ policy.reduceOn p a = true
  accept : cell.accept = true ↔ made (.reduce i a start) ∧ a = none

variable {policy : Policy T} {start : Nat} {made : Offer T → Prop} {i : Nat} {a : Lookahead T}
  {cell : Cell}

omit [Ordered T] in
/-- An offer for another cell makes no difference. -/
theorem Cell.Holds.of_ne (h : cell.Holds policy start made i a) {o : Offer T}
    (hne : ¬ (i = o.state ∧ a = o.ahead)) :
    cell.Holds policy start (fun o' => made o' ∨ o' = o) i a where
  shift := by
    intro j
    refine h.shift.trans (exists_congr fun t => and_congr_right fun ha => ?_)
    refine (or_iff_left fun he => hne ?_).symm
    subst he
    exact ⟨rfl, ha⟩
  reduce := by
    intro p
    refine h.reduce.trans (and_congr_left fun _ => (or_iff_left fun he => hne ?_).symm)
    subst he
    exact ⟨rfl, rfl⟩
  accept := by
    refine h.accept.trans (and_congr_left fun _ => (or_iff_left fun he => hne ?_).symm)
    subst he
    exact ⟨rfl, rfl⟩

omit [Ordered T] in
/-- A first shift. -/
theorem Cell.Holds.addShift {t : T} {j : Nat} (h : cell.Holds policy start made i (some t))
    (hn : cell.shift? = none) :
    Cell.Holds policy start (fun o => made o ∨ o = .shift i t j) i (some t)
      { cell with shift? := some j } where
  shift := by
    intro j'
    constructor
    · intro hj
      cases hj
      exact ⟨t, rfl, .inr rfl⟩
    · intro ⟨t', ht, hm⟩
      rcases hm with hm | he
      · rw [h.shift.mpr ⟨t', ht, hm⟩] at hn
        cases hn
      · cases he
        rfl
  reduce := by
    intro p
    simpa using h.reduce
  accept := by simpa using h.accept

omit [Ordered T] in
/-- A reduction makes no difference to the shift. -/
theorem Cell.Holds.shift_of_reduce {p j : Nat} (h : cell.Holds policy start made i a) :
    cell.shift? = some j ↔
      ∃ t, a = some t ∧ (made (.shift i t j) ∨ Offer.shift i t j = .reduce i a p) := by
  simpa using h.shift

omit [Ordered T] in
/-- The reduction of the start production at the end of the input. -/
theorem Cell.Holds.addAccept {p : Nat} (h : cell.Holds policy start made i a)
    (hp : p = start ∧ a = none) :
    Cell.Holds policy start (fun o => made o ∨ o = .reduce i a p) i a
      { cell with accept := true } where
  shift := h.shift_of_reduce
  reduce := by
    intro q
    refine h.reduce.trans (and_congr_left fun hq => (or_iff_left fun he => hq.1 ?_).symm)
    cases he
    exact hp
  accept := ⟨fun _ => ⟨.inr (by rw [hp.1]), hp.2⟩, fun _ => rfl⟩

omit [Ordered T] in
/-- Another reduction that is not vetoed. -/
theorem Cell.Holds.addReduce {p : Nat} (h : cell.Holds policy start made i a)
    (hp : ¬ (p = start ∧ a = none)) (hv : policy.reduceOn p a = true) :
    Cell.Holds policy start (fun o => made o ∨ o = .reduce i a p) i a
      { cell with reduces := cell.reduces.insert p } where
  shift := h.shift_of_reduce
  reduce := by
    intro q
    rw [SortedSet.mem_insert, h.reduce]
    constructor
    · intro hq
      rcases hq with rfl | ⟨hm, hq⟩
      · exact ⟨.inr rfl, hp, hv⟩
      · exact ⟨.inl hm, hq⟩
    · intro ⟨hm, hq⟩
      rcases hm with hm | he
      · exact .inr ⟨hm, hq⟩
      · cases he
        exact .inl rfl
  accept := by
    refine h.accept.trans (and_congr_left fun ha => (or_iff_left fun he => hp ?_).symm)
    cases he
    exact ⟨rfl, ha⟩

omit [Ordered T] in
/-- Another reduction that is vetoed. -/
theorem Cell.Holds.veto {p : Nat} (h : cell.Holds policy start made i a)
    (hp : ¬ (p = start ∧ a = none)) (hv : ¬ policy.reduceOn p a = true) :
    Cell.Holds policy start (fun o => made o ∨ o = .reduce i a p) i a cell where
  shift := h.shift_of_reduce
  reduce := by
    intro q
    refine h.reduce.trans (and_congr_left fun hq => (or_iff_left fun he => hv ?_).symm)
    cases he
    exact hq.2
  accept := by
    refine h.accept.trans (and_congr_left fun ha => (or_iff_left fun he => hp ?_).symm)
    cases he
    exact ⟨rfl, ha⟩

namespace Draft

variable {d d' : Draft T N V} {i' j : Nat} {a' : Lookahead T} {n n' : N}

/-! ## Cells and gotos -/

/-- The cell of a state on a lookahead, if there was an offer for it. -/
def cell? (d : Draft T N V) (i : Nat) (a : Lookahead T) : Option Cell :=
  d.rows[i]?.bind fun row => row.cells.get? a

/-- The state that follows a reduction to a nonterminal above a state. -/
def goto? (d : Draft T N V) (i : Nat) (n : N) : Option Nat :=
  d.rows[i]?.bind fun row => row.gotos.get? n

theorem cell_eq (d : Draft T N V) (i : Nat) (a : Lookahead T) :
    d.cell i a = (d.cell? i a).getD {} := by
  rw [cell, cell?]
  cases d.rows[i]? with
  | none => rfl
  | some row => rfl

theorem cell?_setCell_self (h : i < d.rows.size) : (d.setCell i a cell).cell? i a = some cell := by
  rw [cell?, setCell, Array.getElem?_modify, if_pos rfl, Array.getElem?_eq_getElem h]
  exact SortedMap.get?_insert_self _ _ _

theorem cell?_setCell_of_ne (h : ¬ (i' = i ∧ a' = a)) :
    (d.setCell i a cell).cell? i' a' = d.cell? i' a' := by
  rw [cell?, setCell, Array.getElem?_modify, cell?]
  split
  · rename_i hi
    cases d.rows[i']? with
    | none => rfl
    | some row => exact SortedMap.get?_insert_of_ne _ (fun ha => h ⟨hi.symm, ha⟩) _
  · rfl

@[simp] theorem goto?_setCell : (d.setCell i a cell).goto? i' n = d.goto? i' n := by
  rw [goto?, setCell, Array.getElem?_modify, goto?]
  split
  · cases d.rows[i']? with
    | none => rfl
    | some row => rfl
  · rfl

@[simp] theorem cell?_setGoto : (d.setGoto i n j).cell? i' a = d.cell? i' a := by
  rw [cell?, setGoto, Array.getElem?_modify, cell?]
  split
  · cases d.rows[i']? with
    | none => rfl
    | some row => rfl
  · rfl

theorem goto?_setGoto_self (h : i < d.rows.size) : (d.setGoto i n j).goto? i n = some j := by
  rw [goto?, setGoto, Array.getElem?_modify, if_pos rfl, Array.getElem?_eq_getElem h]
  exact SortedMap.get?_insert_self _ _ _

theorem goto?_setGoto_of_ne (h : ¬ (i' = i ∧ n' = n)) :
    (d.setGoto i n j).goto? i' n' = d.goto? i' n' := by
  rw [goto?, setGoto, Array.getElem?_modify, goto?]
  split
  · rename_i hi
    cases d.rows[i']? with
    | none => rfl
    | some row => exact SortedMap.get?_insert_of_ne _ (fun hn => h ⟨hi.symm, hn⟩) _
  · rfl

@[simp] theorem size_setCell : (d.setCell i a cell).rows.size = d.rows.size :=
  Array.size_modify

@[simp] theorem size_setGoto : (d.setGoto i n j).rows.size = d.rows.size :=
  Array.size_modify

/-! ## Offers -/

/-- A draft of so many states for a grammar and a start production holds the offers that
were made to it, and the gotos. -/
structure Holds (g : Grammar T N V) (policy : Policy T) (start states : Nat)
    (made : Offer T → Prop) (linked : Nat → N → Nat → Prop) (d : Draft T N V) : Prop where
  grammar_eq : d.grammar = g
  start_eq : d.startProduction = start
  size_eq : d.rows.size = states
  known {o : Offer T} : made o → o.state < states
  cell (i : Nat) (a : Lookahead T) : (d.cell i a).Holds policy start made i a
  stored {i : Nat} {a : Lookahead T} :
    (d.cell? i a).isSome = true ↔ ∃ o, made o ∧ o.state = i ∧ o.ahead = a
  goto {i j : Nat} {n : N} : d.goto? i n = some j ↔ linked i n j

variable {g : Grammar T N V} {states : Nat} {linked : Nat → N → Nat → Prop}

theorem holds_blank (g : Grammar T N V) (policy : Policy T) (start states : Nat) :
    (blank g start states).Holds g policy start states (fun _ => False) fun _ _ _ => False where
  grammar_eq := rfl
  start_eq := rfl
  size_eq := Array.size_replicate
  known := False.elim
  cell := by
    intro i a
    have : (blank g start states).cell i a = {} := by
      rw [Draft.cell, blank, Array.getElem?_replicate]
      split
      · rename_i row h
        split at h
        · cases h
          rw [SortedMap.get?_empty]
          rfl
        · cases h
      · rfl
    rw [this]
    exact ⟨by simp, by simp, by simp⟩
  stored := by
    intro i a
    rw [cell?, blank, Array.getElem?_replicate]
    split
    · simp
    · simp
  goto := by
    intro i j n
    rw [goto?, blank, Array.getElem?_replicate]
    split
    · simp
    · simp

/-- What a draft holds for one more offer, if its cell holds it. -/
theorem Holds.setCell (h : d.Holds g policy start states made linked) {o : Offer T}
    (ho : o.state < states)
    (hc : cell.Holds policy start (fun o' => made o' ∨ o' = o) o.state o.ahead) :
    (d.setCell o.state o.ahead cell).Holds g policy start states
      (fun o' => made o' ∨ o' = o) linked where
  grammar_eq := h.grammar_eq
  start_eq := h.start_eq
  size_eq := size_setCell.trans h.size_eq
  known := by
    intro o' hm
    rcases hm with hm | rfl
    · exact h.known hm
    · exact ho
  cell := by
    intro i a
    rw [cell_eq]
    by_cases hi : i = o.state ∧ a = o.ahead
    · obtain ⟨rfl, rfl⟩ := hi
      rw [cell?_setCell_self (h.size_eq.symm ▸ ho)]
      exact hc
    · rw [cell?_setCell_of_ne hi, ← cell_eq]
      exact (h.cell i a).of_ne hi
  stored := by
    intro i a
    by_cases hi : i = o.state ∧ a = o.ahead
    · obtain ⟨rfl, rfl⟩ := hi
      rw [cell?_setCell_self (h.size_eq.symm ▸ ho)]
      exact ⟨fun _ => ⟨o, .inr rfl, rfl, rfl⟩, fun _ => rfl⟩
    · rw [cell?_setCell_of_ne hi, h.stored]
      refine exists_congr fun o' => and_congr_left fun hm => (or_iff_left fun he => hi ?_).symm
      subst he
      exact ⟨hm.1.symm, hm.2.symm⟩
  goto := by
    intro i j n
    rw [goto?_setCell]
    exact h.goto

/-- One more offer, if it is not refused. -/
theorem Holds.offer (h : d.Holds g policy start states made linked) {o : Offer T}
    (ho : o.state < states) (hd : d.offer policy o = .ok d') :
    d'.Holds g policy start states (fun o' => made o' ∨ o' = o) linked := by
  cases o with
  | shift i t j =>
      simp only [Draft.offer] at hd
      split at hd
      · rename_i hn
        cases hd
        exact h.setCell ho ((h.cell i (some t)).addShift hn)
      · rename_i existing hs
        split at hd
        · rename_i he
          cases hd
          subst he
          obtain ⟨t', ht, hm⟩ := (h.cell i (some t)).shift.mp hs
          cases ht
          have : (fun o' => made o' ∨ o' = .shift i t existing) = made := by
            funext o'
            exact propext (or_iff_left_of_imp fun he => he ▸ hm)
          rwa [this]
        · cases hd
  | reduce i a p =>
      cases hd
      refine h.setCell ho ?_
      have hc := h.cell i a
      by_cases hp : p = start ∧ a = none
      · rw [if_pos (by simp [accepts, h.start_eq, hp])]
        exact hc.addAccept hp
      · rw [if_neg (by simpa [accepts, h.start_eq] using hp)]
        split
        · rename_i hv
          exact hc.addReduce hp hv
        · rename_i hv
          exact hc.veto hp hv

/-- A shift is refused only if another one was offered. -/
theorem Holds.exists_offer (h : d.Holds g policy start states made linked) {o : Offer T}
    (ho : ∀ i t j j', o = .shift i t j → made (.shift i t j') → j' = j) :
    ∃ d', d.offer policy o = .ok d' := by
  cases o with
  | shift i t j =>
      simp only [Draft.offer]
      split
      · exact ⟨_, rfl⟩
      · rename_i existing hs
        obtain ⟨t', ht, hm⟩ := (h.cell i (some t)).shift.mp hs
        cases ht
        rw [if_pos (ho i t j existing rfl hm)]
        exact ⟨_, rfl⟩
  | reduce i a p => exact ⟨_, rfl⟩

/-- One more goto, if no other one is there. -/
theorem Holds.setGoto (h : d.Holds g policy start states made linked) (hi : i < states)
    (ho : ∀ j', linked i n j' → j' = j) :
    (d.setGoto i n j).Holds g policy start states made
      fun i' n' j' => linked i' n' j' ∨ i' = i ∧ n' = n ∧ j' = j where
  grammar_eq := h.grammar_eq
  start_eq := h.start_eq
  size_eq := size_setGoto.trans h.size_eq
  known := h.known
  cell := by
    intro i' a
    rw [cell_eq, cell?_setGoto, ← cell_eq]
    exact h.cell i' a
  stored := by
    intro i' a
    rw [cell?_setGoto]
    exact h.stored
  goto := by
    intro i' j' n'
    by_cases he : i' = i ∧ n' = n
    · obtain ⟨rfl, rfl⟩ := he
      rw [goto?_setGoto_self (h.size_eq.symm ▸ hi)]
      constructor
      · intro hj
        cases hj
        exact .inr ⟨rfl, rfl, rfl⟩
      · rintro (hl | ⟨_, _, rfl⟩)
        · rw [ho j' hl]
        · rfl
    · rw [goto?_setGoto_of_ne he, h.goto]
      exact (or_iff_left fun hl => he ⟨hl.1, hl.2.1⟩).symm

/-- It only matters which offers and gotos there are. -/
theorem Holds.congr {made' : Offer T → Prop} {linked' : Nat → N → Nat → Prop}
    (h : d.Holds g policy start states made linked) (hm : ∀ o, made o ↔ made' o)
    (hl : ∀ i n j, linked i n j ↔ linked' i n j) :
    d.Holds g policy start states made' linked' := by
  have hm : made = made' := funext fun o => propext (hm o)
  have hl : linked = linked' := funext fun i => funext fun n => funext fun j => propext (hl i n j)
  rwa [← hm, ← hl]

/-! ## Many offers -/

/-- Some more offers, if none is refused. -/
theorem Holds.offers {os : List (Offer T)} (h : d.Holds g policy start states made linked)
    (hs : ∀ o ∈ os, o.state < states)
    (hd : os.foldlM (fun d o => d.offer policy o) d = .ok d') :
    d'.Holds g policy start states (fun o => made o ∨ o ∈ os) linked := by
  induction os generalizing d made with
  | nil =>
      cases hd
      exact h.congr (by simp) (by simp)
  | cons o os ih =>
      rw [List.foldlM_cons] at hd
      cases hn : d.offer policy o with
      | error e =>
          rw [hn] at hd
          cases hd
      | ok next =>
          rw [hn] at hd
          have h := ih (h.offer (hs o List.mem_cons_self) hn)
            (fun o' ho => hs o' (List.mem_cons_of_mem _ ho)) hd
          exact h.congr (by simp [or_assoc]) (by simp)

/-- Reductions are never refused. -/
theorem exists_reductions (policy : Policy T) (os : List (Offer T)) (d : Draft T N V)
    (hr : ∀ o ∈ os, ∃ i a p, o = .reduce i a p) :
    ∃ d', os.foldlM (fun d o => d.offer policy o) d = .ok d' := by
  induction os generalizing d with
  | nil => exact ⟨d, rfl⟩
  | cons o os ih =>
      obtain ⟨i, a, p, rfl⟩ := hr o List.mem_cons_self
      rw [List.foldlM_cons]
      exact ih _ fun o ho => hr o (List.mem_cons_of_mem _ ho)

/-- The draft holds some transitions and nothing else. -/
def Connects (g : Grammar T N V) (policy : Policy T) (start states : Nat)
    (ts : List (Transition T N)) (d : Draft T N V) : Prop :=
  d.Holds g policy start states (fun o => ∃ t ∈ ts, t.Offers o)
    fun i n j => ⟨i, .nonterminal n, j⟩ ∈ ts

/-- One more transition, if all those on its symbol lead to its target. -/
theorem Connects.exists_connect {ts : List (Transition T N)} {t : Transition T N}
    (h : d.Connects g policy start states ts) (hi : t.source < states)
    (unique : ∀ j, ⟨t.source, t.symbol, j⟩ ∈ ts → j = t.target) :
    ∃ d', d.connect policy t = .ok d' ∧ d'.Connects g policy start states (ts ++ [t]) := by
  obtain ⟨i, s, j⟩ := t
  cases s with
  | terminal a =>
      have agree : ∀ i' a' j' k, Offer.shift i a j = .shift i' a' j' →
          (∃ t ∈ ts, t.Offers (.shift i' a' k)) → k = j' := by
        intro i' a' j' k he hm
        cases he
        obtain ⟨⟨i'', s, k'⟩, hm, a'', hs, he⟩ := hm
        cases hs
        cases he
        exact unique k' hm
      obtain ⟨d', hd⟩ := h.exists_offer agree
      refine ⟨d', hd, (h.offer (o := .shift i a j) hi hd).congr ?_ (by simp)⟩
      intro o
      simp only [List.mem_append, List.mem_singleton, or_and_right, exists_or, exists_eq_left]
      refine or_congr_right ⟨fun he => ⟨a, rfl, he⟩, ?_⟩
      intro he
      obtain ⟨a', hs, he⟩ := he
      cases hs
      exact he
  | nonterminal n =>
      refine ⟨_, rfl, (h.setGoto hi unique).congr ?_ ?_⟩
      · intro o
        simp [or_and_right, exists_or, Transition.Offers]
      · intro i' n' j'
        simp

/-- No transition is refused, if no two on one symbol lead to different states. -/
theorem Connects.exists_transitions (before ts : List (Transition T N))
    (functional : ∀ t ∈ before ++ ts, ∀ t' ∈ before ++ ts,
      t.source = t'.source → t.symbol = t'.symbol → t.target = t'.target)
    (hs : ∀ t ∈ ts, t.source < states) (h : d.Connects g policy start states before) :
    ∃ d', ts.foldlM (fun d t => d.connect policy t) d = .ok d' ∧
      d'.Connects g policy start states (before ++ ts) := by
  induction ts generalizing d before with
  | nil =>
      rw [List.append_nil]
      exact ⟨d, rfl, h⟩
  | cons t ts ih =>
      have unique : ∀ j, ⟨t.source, t.symbol, j⟩ ∈ before → j = t.target := fun j hm =>
        functional _ (List.mem_append_left _ hm) t (List.mem_append_right _ List.mem_cons_self)
          rfl rfl
      obtain ⟨next, hn, hnext⟩ := h.exists_connect (hs t List.mem_cons_self) unique
      -- The transition at the front joins those before.
      have happend : before ++ t :: ts = before ++ [t] ++ ts := by
        rw [List.append_assoc, List.singleton_append]
      rw [happend] at functional ⊢
      obtain ⟨d', hd', h'⟩ := ih _ functional (fun t ht => hs t (List.mem_cons_of_mem _ ht)) hnext
      refine ⟨d', ?_, h'⟩
      rw [List.foldlM_cons, hn]
      exact hd'

end Draft

/-! ## The draft of an automaton -/

namespace Machine

variable {machine : Machine T N Λ} {g : Grammar T N V} {aheads : Item Λ → List (Lookahead T)}

theorem mem_transitions {t : Transition T N} :
    t ∈ machine.transitions ↔ machine.next? t.source t.symbol = some t.target := by
  obtain ⟨i, s, j⟩ := t
  simp only [transitions, List.mem_flatMap, List.mem_map, Prod.exists,
    List.mem_zipIdx_iff_getElem?, Transition.mk.injEq, next?, Option.bind_eq_some_iff,
    SortedMap.get?_eq_some_iff]
  constructor
  · intro h
    obtain ⟨state, i', hi, s', j', hm, rfl, rfl, rfl⟩ := h
    exact ⟨state, hi, hm⟩
  · intro h
    obtain ⟨state, hi, hm⟩ := h
    exact ⟨state, i, hi, s, j, hm, rfl, rfl, rfl⟩

theorem mem_reductions {o : Offer T} :
    o ∈ machine.reductions g aheads ↔
      ∃ i, ∃ item ∈ machine.items i, item.isComplete g = true ∧
        ∃ a ∈ aheads item, o = .reduce i a item.production := by
  simp only [reductions, List.mem_flatMap, List.mem_map, Prod.exists, List.mem_filter,
    List.mem_zipIdx_iff_getElem?, SortedSet.mem_toList]
  constructor
  · intro h
    obtain ⟨state, i, hi, item, ⟨hm, hc⟩, a, ha, ho⟩ := h
    refine ⟨i, item, ?_, hc, a, ha, ho.symm⟩
    rwa [items, hi]
  · intro h
    obtain ⟨i, item, hm, hc, a, ha, ho⟩ := h
    rw [items] at hm
    split at hm
    · rename_i state hi
      exact ⟨state, i, hi, item, ⟨hm, hc⟩, a, ha, ho.symm⟩
    · exact absurd hm (SortedSet.not_mem_empty item)

/-- The draft of an automaton comes about, and it holds just the transitions of the
automaton and its completed items. -/
theorem exists_draft (machine : Machine T N Λ) (g : Grammar T N V) (policy : Policy T)
    (start : Nat) (aheads : Item Λ → List (Lookahead T)) :
    ∃ d, machine.draft g policy start aheads = .ok d ∧
      d.Holds g policy start machine.states.length
        (fun o => (∃ t ∈ machine.transitions, t.Offers o) ∨ o ∈ machine.reductions g aheads)
        fun i n j => machine.next? i (.nonterminal n) = some j := by
  have blank := Draft.holds_blank g policy start machine.states.length
  have functional : ∀ t ∈ [] ++ machine.transitions, ∀ t' ∈ [] ++ machine.transitions,
      t.source = t'.source → t.symbol = t'.symbol → t.target = t'.target := by
    intro t ht t' ht' hs hy
    rw [List.nil_append, mem_transitions] at ht ht'
    rw [hs, hy, ht'] at ht
    exact (Option.some.inj ht).symm
  obtain ⟨connected, hc, h⟩ := Draft.Connects.exists_transitions [] machine.transitions functional
    (fun t ht => lt_of_next? (mem_transitions.mp ht)) (blank.congr (by simp) (by simp))
  have reduces : ∀ o ∈ machine.reductions g aheads, ∃ i a p, o = .reduce i a p := by
    intro o ho
    obtain ⟨i, item, _, _, a, _, ho⟩ := mem_reductions.mp ho
    exact ⟨i, a, _, ho⟩
  obtain ⟨d, hd⟩ := Draft.exists_reductions policy _ connected reduces
  refine ⟨d, ?_, ?_⟩
  · rw [draft, hc]
    exact hd
  · refine (h.offers ?_ hd).congr (by simp) ?_
    · intro o ho
      obtain ⟨i, item, hm, _, a, _, rfl⟩ := mem_reductions.mp ho
      exact lt_of_mem_items hm
    · intro i n j
      rw [List.nil_append]
      exact mem_transitions

end Machine

end BottomUp
