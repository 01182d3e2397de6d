import BottomUp.Proofs.Resolution

/-!
# The order of offers

Whoever fills a draft by hand makes one offer after the other.  An offer first makes its
cell, even if it is then vetoed or refused (`Draft.submit`), and every one is answered.
An offer that is refused nevertheless leaves the draft as it was, since a cell where a
shift is refused is there already (`submit_eq`).

What a draft holds settles what it is (`Holds.unique`).  So drafts for which the same
offers were made, in whatever order and however often, are one draft, and they are
settled in the same way.
-/

namespace BottomUp

variable {T N V : Type} [Ordered T]

/-! ## Drafts with the same content -/

variable {policy : Policy T} {start states : Nat} {made : Offer T → Prop}

omit [Ordered T] in
/-- The offers that were made for a cell settle what it is. -/
theorem Cell.Holds.unique {i : Nat} {a : Lookahead T} {cell cell' : Cell}
    (h : cell.Holds policy start made i a) (h' : cell'.Holds policy start made i a) :
    cell = cell' := by
  obtain ⟨shift?, reduces, accept⟩ := cell
  obtain ⟨shift?', reduces', accept'⟩ := cell'
  have shift : shift? = shift?' := Option.ext fun _ => h.shift.trans h'.shift.symm
  have reduce : reduces = reduces' := SortedSet.ext fun _ => h.reduce.trans h'.reduce.symm
  have accept : accept = accept' := Bool.eq_iff_iff.mpr (h.accept.trans h'.accept.symm)
  rw [shift, reduce, accept]

namespace Draft

variable [Ordered N] {g : Grammar T N V} {d d' : Draft T N V}

/-- Drafts with the same cells and the same gotos are equal. -/
theorem ext_get? (grammar : d.grammar = d'.grammar)
    (startProduction : d.startProduction = d'.startProduction)
    (size : d.rows.size = d'.rows.size) (cells : ∀ i a, d.cell? i a = d'.cell? i a)
    (gotos : ∀ i n, d.goto? i n = d'.goto? i n) : d = d' := by
  have rows : d.rows = d'.rows := by
    refine Array.ext size fun i hi hi' => ?_
    have hc : d.rows[i].cells = d'.rows[i].cells := SortedMap.ext fun a => by
      simpa [cell?, hi, hi'] using cells i a
    have hg : d.rows[i].gotos = d'.rows[i].gotos := SortedMap.ext fun n => by
      simpa [goto?, hi, hi'] using gotos i n
    cases hr : d.rows[i]
    cases hr' : d'.rows[i]
    rw [hr, hr'] at hc hg
    cases hc
    cases hg
    rfl
  cases d
  cases d'
  cases grammar
  cases startProduction
  cases rows
  rfl

/-- What a draft holds settles what it is. -/
theorem Holds.unique {linked : Nat → N → Nat → Prop}
    (h : d.Holds g policy start states made linked)
    (h' : d'.Holds g policy start states made linked) : d = d' := by
  refine ext_get? (h.grammar_eq.trans h'.grammar_eq.symm) (h.start_eq.trans h'.start_eq.symm)
    (h.size_eq.trans h'.size_eq.symm) (fun i a => ?_) fun i n => ?_
  · -- There is a cell in one draft if there is one in the other, and then they are equal.
    have present := Bool.eq_iff_iff.mpr (h.stored.trans (h'.stored (i := i) (a := a)).symm)
    have content := (h.cell i a).unique (h'.cell i a)
    rw [cell_eq, cell_eq] at content
    cases hd : d.cell? i a with
    | none =>
        rw [hd] at present
        exact (Option.isSome_eq_false_iff.mp present.symm |> Option.isNone_iff_eq_none.mp).symm
    | some cell =>
        rw [hd] at present content
        obtain ⟨cell', hd'⟩ := Option.isSome_iff_exists.mp present.symm
        rw [hd'] at content ⊢
        exact congrArg some content
  · exact Option.ext fun j => h.goto.trans h'.goto.symm

/-! ## Offers as calls -/

/-- The draft in which a cell is there, if only without offers. -/
def openCell (d : Draft T N V) (state : Nat) (ahead : Lookahead T) : Draft T N V :=
  d.setCell state ahead (d.cell state ahead)

/-- Make an offer, step by step: the cell is made before anything is decided, and it stays
if the offer is refused. -/
def submit (d : Draft T N V) (policy : Policy T) :
    Offer T → Draft T N V × Option (CompileError T N)
  | .shift state t target =>
      let opened := d.openCell state (some t)
      let cell := opened.cell state (some t)
      let entered := opened.setCell state (some t) { cell with shift? := some target }
      match cell.shift? with
      | none => (entered, none)
      | some existing =>
          if existing = target then (entered, none)
          else (opened, some (.conflict state (some t) (.shift existing) (.shift target)))
  | .reduce state ahead production =>
      let opened := d.openCell state ahead
      let cell := opened.cell state ahead
      if d.accepts production ahead then
        (opened.setCell state ahead { cell with accept := true }, none)
      else if policy.reduceOn production ahead then
        (opened.setCell state ahead { cell with reduces := cell.reduces.insert production }, none)
      else (opened, none)

/-- Make offers one after the other, whatever becomes of those before, and keep the
answers: nothing, or why an offer is refused. -/
def submitAll (d : Draft T N V) (policy : Policy T) :
    List (Offer T) → Draft T N V × List (Option (CompileError T N))
  | [] => (d, [])
  | o :: os =>
      let (next, answer) := d.submit policy o
      let (last, answers) := next.submitAll policy os
      (last, answer :: answers)

/-- The offers of a list that are not refused when all are made in their order. -/
def granted (d : Draft T N V) (policy : Policy T) (os : List (Offer T)) : List (Offer T) :=
  (os.zip (d.submitAll policy os).2).filterMap fun (o, answer) =>
    if answer.isNone then some o else none

/-! ## A refused offer changes nothing -/

variable {i i' : Nat} {a a' : Lookahead T} {cell cell' : Cell} {o : Offer T}

theorem cell?_setCell : (d.setCell i a cell).cell? i' a' =
    if i' = i ∧ a' = a ∧ i < d.rows.size then some cell else d.cell? i' a' := by
  by_cases he : i' = i ∧ a' = a
  · obtain ⟨rfl, rfl⟩ := he
    by_cases hi : i' < d.rows.size
    · rw [cell?_setCell_self hi, if_pos ⟨rfl, rfl, hi⟩]
    · rw [if_neg fun h => hi h.2.2, cell?, cell?, Array.getElem?_eq_none (by simpa using hi),
        Array.getElem?_eq_none (by simpa using hi)]
  · rw [cell?_setCell_of_ne he, if_neg fun h => he ⟨h.1, h.2.1⟩]

/-- Of two cells set at one place the later one counts. -/
@[simp] theorem setCell_setCell :
    (d.setCell i a cell).setCell i a cell' = d.setCell i a cell' := by
  refine ext_get? rfl rfl (by simp) (fun i' a' => ?_) fun _ _ => by simp
  simp only [cell?_setCell, size_setCell]
  split
  · rfl
  · rfl

/-- Setting a cell to what it is makes no difference. -/
theorem setCell_of_cell? (h : d.cell? i a = some cell) : d.setCell i a cell = d := by
  refine ext_get? rfl rfl (by simp) (fun i' a' => ?_) fun _ _ => by simp
  rw [cell?_setCell]
  split
  · rename_i he
    rw [he.1, he.2.1, h]
  · rfl

/-- A cell with a shift is there. -/
theorem cell?_of_shift {j : Nat} (h : (d.cell i a).shift? = some j) :
    d.cell? i a = some (d.cell i a) := by
  rw [cell_eq] at h ⊢
  cases hc : d.cell? i a with
  | none =>
      rw [hc] at h
      cases h
  | some cell => rfl

/-- Making a cell does not change what is in it. -/
@[simp] theorem cell_openCell : (d.openCell i a).cell i a = d.cell i a := by
  rw [cell_eq, openCell, cell?_setCell]
  split
  · rfl
  · rw [← cell_eq]

/-- An offer that is refused leaves the draft as it was. -/
theorem submit_eq (d : Draft T N V) (policy : Policy T) (o : Offer T) :
    d.submit policy o =
      match d.offer policy o with
      | .ok d' => (d', none)
      | .error e => (d, some e) := by
  cases o with
  | shift i t j =>
      simp only [submit, offer, cell_openCell]
      cases hs : (d.cell i (some t)).shift? with
      | none => simp only [openCell, setCell_setCell]
      | some existing =>
          -- The cell is there because a shift is in it.
          have opened : d.openCell i (some t) = d := setCell_of_cell? (cell?_of_shift hs)
          rw [opened]
          by_cases he : existing = j
          · subst he
            have same : { d.cell i (some t) with shift? := some existing } = d.cell i (some t) := by
              rw [← hs]
            simp only [if_true, same]
            rw [setCell_of_cell? (cell?_of_shift hs)]
          · simp only [if_neg he]
  | reduce i a p =>
      simp only [submit, offer, cell_openCell]
      split
      · simp only [openCell, setCell_setCell]
      · split
        · simp only [openCell, setCell_setCell]
        · rfl

theorem submit_of_ok (h : d.offer policy o = .ok d') : d.submit policy o = (d', none) := by
  rw [submit_eq, h]

theorem submit_of_error {e : CompileError T N} (h : d.offer policy o = .error e) :
    d.submit policy o = (d, some e) := by
  rw [submit_eq, h]

/-- Only shifts are refused. -/
theorem exists_shift_of_refused (h : (d.submit policy o).2.isSome = true) :
    ∃ i t j, o = .shift i t j := by
  cases o with
  | shift i t j => exact ⟨i, t, j, rfl⟩
  | reduce i a p =>
      rw [submit_eq] at h
      cases h

/-! ## Runs -/

variable {os os' : List (Offer T)}

theorem submitAll_cons : d.submitAll policy (o :: os) =
    (((d.submit policy o).1.submitAll policy os).1,
      (d.submit policy o).2 :: ((d.submit policy o).1.submitAll policy os).2) := rfl

/-- An offer that is made is kept in its place. -/
theorem granted_cons_of_ok (h : d.offer policy o = .ok d') :
    d.granted policy (o :: os) = o :: d'.granted policy os := by
  rw [granted, submitAll_cons, submit_of_ok h]
  rfl

/-- An offer that is refused is left out. -/
theorem granted_cons_of_error {e : CompileError T N} (h : d.offer policy o = .error e) :
    d.granted policy (o :: os) = d.granted policy os := by
  rw [granted, submitAll_cons, submit_of_error h]
  rfl

/-- Where no offer is refused, all are kept. -/
theorem granted_eq_self (h : ∀ answer ∈ (d.submitAll policy os).2, answer = none) :
    d.granted policy os = os := by
  induction os generalizing d with
  | nil => rfl
  | cons o os ih =>
      rw [submitAll_cons, List.forall_mem_cons] at h
      cases hd : d.offer policy o with
      | ok d' =>
          rw [submit_of_ok hd] at h
          rw [granted_cons_of_ok hd, ih h.2]
      | error e =>
          rw [submit_of_error hd] at h
          cases h.1

/-- Only shifts are left out. -/
theorem exists_shift_of_mem_zip {answer : Option (CompileError T N)}
    (hm : (o, answer) ∈ os.zip (d.submitAll policy os).2) (h : answer.isSome = true) :
    ∃ i t j, o = .shift i t j := by
  induction os generalizing d with
  | nil => cases hm
  | cons o' os ih =>
      rw [submitAll_cons, List.zip_cons_cons] at hm
      rcases List.mem_cons.mp hm with he | hm
      · cases he
        exact exists_shift_of_refused h
      · exact ih hm

/-- After the offers that are not refused, made by themselves, the draft is the same, and
none of them is refused. -/
theorem submitAll_granted (d : Draft T N V) (policy : Policy T) (os : List (Offer T)) :
    (d.submitAll policy (d.granted policy os)).1 = (d.submitAll policy os).1 ∧
      ∀ answer ∈ (d.submitAll policy (d.granted policy os)).2, answer = none := by
  induction os generalizing d with
  | nil => exact ⟨rfl, nofun⟩
  | cons o os ih =>
      cases hd : d.offer policy o with
      | ok d' =>
          rw [granted_cons_of_ok hd, submitAll_cons, submitAll_cons, submit_of_ok hd]
          exact ⟨(ih d').1, List.forall_mem_cons.mpr ⟨rfl, (ih d').2⟩⟩
      | error e =>
          rw [granted_cons_of_error hd, show d.submitAll policy (o :: os) = _ from submitAll_cons,
            submit_of_error hd]
          exact ih d

variable {linked : Nat → N → Nat → Prop}

/-- A run adds the offers that are not refused to what a draft holds. -/
theorem Holds.submitAll (h : d.Holds g policy start states made linked)
    (hs : ∀ o ∈ os, o.state < states) :
    (d.submitAll policy os).1.Holds g policy start states
      (fun o => made o ∨ o ∈ d.granted policy os) linked := by
  induction os generalizing d made with
  | nil => exact h.congr (by simp [granted]) (by simp)
  | cons o os ih =>
      obtain ⟨ho, hs⟩ := List.forall_mem_cons.mp hs
      cases hd : d.offer policy o with
      | ok d' =>
          rw [submitAll_cons, submit_of_ok hd, granted_cons_of_ok hd]
          exact (ih (h.offer ho hd) hs).congr (by simp [or_assoc]) (by simp)
      | error e =>
          rw [submitAll_cons, submit_of_error hd, granted_cons_of_error hd]
          exact ih h hs

/-- Runs in which the same offers are made, none of them refused, fill a draft in the same
way. -/
theorem Holds.submitAll_eq (h : d.Holds g policy start states made linked)
    (hs : ∀ o ∈ os, o.state < states) (hm : ∀ o, o ∈ os ↔ o ∈ os')
    (ok : ∀ answer ∈ (d.submitAll policy os).2, answer = none)
    (ok' : ∀ answer ∈ (d.submitAll policy os').2, answer = none) :
    (d.submitAll policy os).1 = (d.submitAll policy os').1 := by
  have run := h.submitAll hs
  have run' := h.submitAll fun o ho => hs o ((hm o).mpr ho)
  rw [granted_eq_self ok] at run
  rw [granted_eq_self ok'] at run'
  exact run.unique (run'.congr (fun o => or_congr_right (hm o).symm) fun _ _ _ => Iff.rfl)

/-! ## Tables do not depend on the order of offers -/

/-- For every grammar, start production, number of states and policy, and every list of
offers of existing states and productions: a list of the same offers, in any order and
however often, finishes as the same compilation if none of the two has an offer that is
refused; and whatever is refused is a shift, and leaving out all that is refused gives a
list that is granted as a whole and finishes as the same compilation. -/
theorem finish_of_same_offers (g : Grammar T N V) (policy : Policy T) (start states : Nat)
    (os : List (Offer T)) (known : ∀ o ∈ os, (blank g start states).knows o = true) :
    let run := (blank g start states).submitAll policy
    let granted := (blank g start states).granted policy os
    (∀ os', (∀ o, o ∈ os ↔ o ∈ os') → (∀ answer ∈ (run os).2, answer = none) →
      (∀ answer ∈ (run os').2, answer = none) →
        (run os).1.finish policy = (run os').1.finish policy) ∧
    (∀ o e, (o, some e) ∈ os.zip (run os).2 → ∃ i t j, o = .shift i t j) ∧
    (∀ answer ∈ (run granted).2, answer = none) ∧
    (run os).1.finish policy = (run granted).1.finish policy := by
  have states_known : ∀ o ∈ os, o.state < states := by
    intro o ho
    have hk := known o ho
    cases o with
    | shift i t j => simpa [knows, blank, Offer.state] using hk
    | reduce i a p =>
        rw [knows, Bool.and_eq_true] at hk
        simpa [blank, Offer.state] using hk.1
  have kept := submitAll_granted (blank g start states) policy os
  refine ⟨fun os' hm ok ok' => ?_, fun o e hm => exists_shift_of_mem_zip hm rfl, kept.2, ?_⟩
  · rw [(holds_blank g policy start states).submitAll_eq states_known hm ok ok']
  · rw [kept.1]

/-- Four offers for two states of the table of sums, and the same four in another order and
with repetitions.  A second shift from state `1` on the sign is refused and left out. -/
theorem finish_of_same_offers_sums :
    let run := (blank Grammar.sums 0 2).submitAll {}
    (run [.shift 1 1 0, .reduce 1 (some 1) 1, .reduce 0 none 0, .reduce 1 none 1]).1.finish {} =
      (run [.reduce 1 none 1, .reduce 0 none 0, .reduce 1 (some 1) 1, .reduce 1 none 1,
        .shift 1 1 0, .reduce 0 none 0]).1.finish {} ∧
    (blank Grammar.sums 0 2).granted {} [.shift 1 1 0, .reduce 1 none 1, .shift 1 1 1] =
      [.shift 1 1 0, .reduce 1 none 1] ∧
    (run [.shift 1 1 0, .reduce 1 none 1, .shift 1 1 1]).1.finish {} =
      (run [.shift 1 1 0, .reduce 1 none 1]).1.finish {} := by
  refine ⟨?_, by decide +kernel, ?_⟩
  · exact (finish_of_same_offers Grammar.sums {} 0 2 _ (by decide +kernel)).1 _ (by grind)
      (by decide +kernel) (by decide +kernel)
  · have kept : (blank Grammar.sums 0 2).granted {} [.shift 1 1 0, .reduce 1 none 1,
        .shift 1 1 1] = [.shift 1 1 0, .reduce 1 none 1] := by decide +kernel
    have same := (finish_of_same_offers Grammar.sums {} 0 2
      [.shift 1 1 0, .reduce 1 none 1, .shift 1 1 1] (by decide +kernel)).2.2.2
    simpa only [kept] using same

end Draft

end BottomUp
