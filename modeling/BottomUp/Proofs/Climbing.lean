import BottomUp.Parser.Tree
import BottomUp.Proofs.Operators

/-!
# Operators in their order

Tokens that are alternately operands and operators can be put together to an operation in
many ways.  An operation *fits* if the operator at the root of each operand is one that the
operator above admits there (`Operators.Fits`).

Operations that fit are found from left to right (`Operators.climb`).  What is not yet an
operand of anything is piled up, an expression and the operator behind it at a time.  In
front of the next operator the pile is unwound: an operation that the operator admits on its
left becomes an operand of it, and an operator that admits the next one on its right waits
for it.  If neither is so the two tie.

That is a decision procedure.  It finds every operation that fits (`climb_frontier`), so
there is only one to a string of tokens, and what it finds fits (`fits_of_climb`).
-/

namespace BottomUp

variable {K T N V : Type}

/-! ## Operations -/

/-- A binary tree with operands at its leaves and operators at its inner nodes. -/
inductive Operation (K : Type) where
  /-- An operand. -/
  | operand (k : K)
  /-- An operator between two operations. -/
  | join (left : Operation K) (operator : K) (right : Operation K)

namespace Operation

/-- The tokens from left to right. -/
def frontier : Operation K → List K
  | operand k => [k]
  | join left operator right => left.frontier ++ operator :: right.frontier

/-- The operator at the root, if there is one. -/
def root? : Operation K → Option K
  | operand _ => none
  | join _ operator _ => some operator

end Operation

namespace Operators

/-- The value of an operation. -/
def value (ops : Operators T N V) (r : Reader K T V) : Operation K → V
  | .operand k => ops.operand [r.value k]
  | .join left operator right =>
      ops.join (r.terminal operator) [value ops r left, r.value operator, value ops r right]

/-- The tokens are alternately operands and operators, beginning and ending with an
operand. -/
inductive Alternates (ops : Operators T N V) (r : Reader K T V) : List K → Prop
  | single {k : K} : r.terminal k = ops.atom → Alternates ops r [k]
  | more {k o : K} {w : List K} : r.terminal k = ops.atom → r.terminal o ∈ ops.operators →
      Alternates ops r w → Alternates ops r (k :: o :: w)

variable [DecidableEq T]

/-- The operator admits the operation as its left operand. -/
def FitsLeft (ops : Operators T N V) (r : Reader K T V) (o : K) (t : Operation K) : Prop :=
  ∀ o' ∈ t.root?, ops.AdmitsLeft (r.terminal o) (r.terminal o')

/-- The operator admits the operation as its right operand. -/
def FitsRight (ops : Operators T N V) (r : Reader K T V) (o : K) (t : Operation K) : Prop :=
  ∀ o' ∈ t.root?, ops.AdmitsRight (r.terminal o) (r.terminal o')

/-- The tokens are operands and operators where they should be, and each operator admits its
operands. -/
inductive Fits (ops : Operators T N V) (r : Reader K T V) : Operation K → Prop
  | operand {k : K} : r.terminal k = ops.atom → Fits ops r (.operand k)
  | join {left right : Operation K} {o : K} : Fits ops r left → Fits ops r right →
      r.terminal o ∈ ops.operators → ops.FitsLeft r o left → ops.FitsRight r o right →
      Fits ops r (.join left o right)

/-! ## Finding operations -/

/-- Expressions with operators behind them, the last one first. -/
abbrev Pile (K : Type) : Type := List (Operation K × K)

/-- What is piled up waits for operators of the grammar. -/
def Knows (ops : Operators T N V) (r : Reader K T V) (pile : Pile K) : Prop :=
  ∀ x ∈ pile, r.terminal x.2 ∈ ops.operators

/-- What comes of some tokens. -/
inductive Outcome (K : Type) where
  /-- An operation. -/
  | found (t : Operation K)
  /-- Two operators that tie. -/
  | tie
  /-- A token in the wrong place. -/
  | malformed

/-- Unwind the pile in front of an operator, until its top waits for the operator.  The answer
is `none` if the two tie. -/
def unwind? (ops : Operators T N V) (r : Reader K T V) (o : K) :
    Pile K → Operation K → Option (Pile K × Operation K)
  | [], t => some ([], t)
  | (left, o') :: pile, t =>
      if ops.AdmitsRight (r.terminal o') (r.terminal o) then some ((left, o') :: pile, t)
      else if ops.AdmitsLeft (r.terminal o) (r.terminal o') then
        unwind? ops r o pile (.join left o' t)
      else none

/-- Unwind the pile at the end of the tokens. -/
def unwindAll : Pile K → Operation K → Operation K
  | [], t => t
  | (left, o) :: pile, t => unwindAll pile (.join left o t)

mutual

/-- Read on where an operand is awaited. -/
def climb (ops : Operators T N V) (r : Reader K T V) (pile : Pile K) : List K → Outcome K
  | [] => .malformed
  | k :: w => if r.terminal k = ops.atom then goOn ops r pile (.operand k) w else .malformed
termination_by structural w => w

/-- Read on behind an expression. -/
def goOn (ops : Operators T N V) (r : Reader K T V) (pile : Pile K) (t : Operation K) :
    List K → Outcome K
  | [] => .found (unwindAll pile t)
  | o :: w =>
      if r.terminal o ∈ ops.operators then
        match unwind? ops r o pile t with
        | some (pile, t) => climb ops r ((t, o) :: pile) w
        | none => .tie
      else .malformed
termination_by structural w => w

end

variable {ops : Operators T N V} {r : Reader K T V} {pile : Pile K} {t : Operation K} {k o : K}
  {w : List K}

/-! ## What fits is found -/

omit [DecidableEq T] in
theorem knows_cons : ops.Knows r ((t, o) :: pile) ↔
    r.terminal o ∈ ops.operators ∧ ops.Knows r pile :=
  List.forall_mem_cons

/-- Nothing is unwound in front of an operator that the top of the pile waits for. -/
theorem unwind?_of_admitsRight
    (h : ∀ x ∈ pile.head?, ops.AdmitsRight (r.terminal x.2) (r.terminal o)) :
    ops.unwind? r o pile t = some (pile, t) := by
  cases pile with
  | nil => rw [unwind?]
  | cons x pile => rw [unwind?, if_pos (h x rfl)]

/-- In front of an operator that admits it on its left an operation is put together. -/
theorem goOn_join (ho : r.terminal o ∈ ops.operators) {left : Operation K}
    (hw : ∀ o' ∈ w.head?, r.terminal o' ∈ ops.operators →
      ops.AdmitsLeft (r.terminal o') (r.terminal o)) :
    ops.goOn r ((left, o) :: pile) t w = ops.goOn r pile (.join left o t) w := by
  cases w with
  | nil => rw [goOn, goOn, unwindAll]
  | cons o' w =>
      rw [goOn, goOn]
      by_cases ho' : r.terminal o' ∈ ops.operators
      · have admits := hw o' rfl ho'
        rw [if_pos ho', if_pos ho', unwind?, if_neg (admits.not_right ho' ho), if_pos admits]
      · rw [if_neg ho', if_neg ho']

/-- An operation that fits is found, if the top of the pile and the next operator admit it. -/
theorem Fits.climb_append (h : ops.Fits r t) :
    ∀ {pile : Pile K} {w : List K}, ops.Knows r pile →
      (∀ x ∈ pile.head?, ops.FitsRight r x.2 t) →
      (∀ o ∈ w.head?, r.terminal o ∈ ops.operators → ops.FitsLeft r o t) →
      ops.climb r pile (t.frontier ++ w) = ops.goOn r pile t w := by
  induction h with
  | operand hk =>
      intro pile w _ _ _
      rw [Operation.frontier, List.singleton_append, climb, if_pos hk]
  | @join left right o _ _ ho hl hr ihl ihr =>
      intro pile w hp htop hw
      -- the operators around the operation admit its root, and so the roots of its operands
      have top : ∀ x ∈ pile.head?, ops.AdmitsRight (r.terminal x.2) (r.terminal o) :=
        fun x hx => htop x hx o rfl
      have next : ∀ o' ∈ w.head?, r.terminal o' ∈ ops.operators →
          ops.AdmitsLeft (r.terminal o') (r.terminal o) := fun o' ho' hm => hw o' ho' hm o rfl
      have readLeft : ops.climb r pile (left.frontier ++ o :: (right.frontier ++ w)) =
          ops.goOn r pile left (o :: (right.frontier ++ w)) := by
        refine ihl hp (fun x hx o' ho' => ?_) fun o' ho' _ => ?_
        · exact (top x hx).of_left (hp x (List.mem_of_mem_head? hx)) ho (hl o' ho')
        · cases ho'
          exact hl
      have readRight : ops.climb r ((left, o) :: pile) (right.frontier ++ w) =
          ops.goOn r ((left, o) :: pile) right w := by
        refine ihr ?_ (fun x hx => ?_) fun o' ho' hm c hc => ?_
        · exact knows_cons.mpr ⟨ho, hp⟩
        · cases hx
          exact hr
        · exact (next o' ho' hm).of_right hm ho (hr c hc)
      rw [Operation.frontier, List.append_assoc, List.cons_append, readLeft, goOn, if_pos ho,
        unwind?_of_admitsRight top]
      exact readRight.trans (goOn_join ho next)

/-- What fits is found. -/
theorem climb_frontier (h : ops.Fits r t) : ops.climb r [] t.frontier = .found t := by
  have found : ops.climb r [] (t.frontier ++ []) = ops.goOn r [] t [] :=
    h.climb_append nofun nofun nofun
  rw [List.append_nil, goOn, unwindAll] at found
  exact found

/-- One operation at most that fits has these tokens. -/
theorem Fits.eq_of_frontier {u : Operation K} (h : ops.Fits r t) (h' : ops.Fits r u)
    (hf : u.frontier = t.frontier) : u = t := by
  have both := climb_frontier h'
  rw [hf, climb_frontier h] at both
  cases both
  rfl

/-! ## What is found fits -/

/-- The tokens of what is piled up. -/
def text : Pile K → List K
  | [] => []
  | (t, o) :: pile => text pile ++ (t.frontier ++ [o])

/-- What is piled up are left operands that fit, each for an operator that the one before
waits for. -/
inductive Piled (ops : Operators T N V) (r : Reader K T V) : Pile K → Prop
  | nil : Piled ops r []
  | cons {t : Operation K} {o : K} {pile : Pile K} : Piled ops r pile → ops.Fits r t →
      r.terminal o ∈ ops.operators → ops.FitsLeft r o t →
      (∀ x ∈ pile.head?, ops.AdmitsRight (r.terminal x.2) (r.terminal o)) →
      Piled ops r ((t, o) :: pile)

/-- An operation that is put together from the top of the pile fits like the one before. -/
theorem unwindAll_fits (hp : ops.Piled r pile) : ∀ {t : Operation K}, ops.Fits r t →
    (∀ x ∈ pile.head?, ops.FitsRight r x.2 t) →
    ops.Fits r (unwindAll pile t) ∧ (unwindAll pile t).frontier = text pile ++ t.frontier := by
  induction hp with
  | nil => exact fun ht _ => ⟨ht, rfl⟩
  | @cons left o pile _ hleft ho hl hnext ih =>
      intro t ht htop
      have joined : ops.Fits r (.join left o t) := .join hleft ht ho hl (htop _ rfl)
      obtain ⟨fits, frontier⟩ := ih joined fun x hx o' ho' => by
        cases ho'
        exact hnext x hx
      refine ⟨fits, frontier.trans ?_⟩
      rw [text, Operation.frontier, List.append_assoc, List.append_assoc, List.singleton_append]

/-- Unwinding in front of an operator leaves a pile the top of which waits for it, and an
operation that it admits. -/
theorem unwind?_fits (ho : r.terminal o ∈ ops.operators) (hp : ops.Piled r pile) :
    ∀ {t : Operation K}, ops.Fits r t → (∀ x ∈ pile.head?, ops.FitsRight r x.2 t) →
      ops.FitsLeft r o t → ∀ {pile' : Pile K} {t' : Operation K},
      ops.unwind? r o pile t = some (pile', t') →
      ops.Piled r ((t', o) :: pile') ∧
        text pile' ++ t'.frontier = text pile ++ t.frontier := by
  induction hp with
  | nil =>
      intro t ht _ hleft pile' t' h
      rw [unwind?] at h
      cases h
      exact ⟨.cons .nil ht ho hleft nofun, rfl⟩
  | @cons left o' pile hpile hfits ho' hl hnext ih =>
      intro t ht htop hleft pile' t' h
      rw [unwind?] at h
      split at h
      · rename_i waits
        cases h
        refine ⟨.cons (.cons hpile hfits ho' hl hnext) ht ho hleft fun x hx => ?_, rfl⟩
        cases hx
        exact waits
      · split at h
        · rename_i admits
          have joined : ops.Fits r (.join left o' t) := .join hfits ht ho' hl (htop _ rfl)
          obtain ⟨piled, same⟩ := ih joined
            (fun x hx c hc => by
              cases hc
              exact hnext x hx)
            (fun c hc => by
              cases hc
              exact admits) h
          refine ⟨piled, same.trans ?_⟩
          rw [text, Operation.frontier, List.append_assoc, List.append_assoc,
            List.singleton_append]
        · cases h

/-- What is found fits, and it has the tokens that were piled up and read. -/
theorem fits_of_climb_piled : ∀ {w : List K} {pile : Pile K}, ops.Piled r pile →
    ops.climb r pile w = .found t → ops.Fits r t ∧ t.frontier = text pile ++ w
  | [], pile, _, h => by
      rw [climb] at h
      cases h
  | [k], pile, hp, h => by
      rw [climb] at h
      split at h
      · rename_i hk
        rw [goOn] at h
        cases h
        exact unwindAll_fits hp (.operand hk) nofun
      · cases h
  | k :: o :: w, pile, hp, h => by
      rw [climb] at h
      split at h
      · rename_i hk
        rw [goOn] at h
        split at h
        · rename_i ho
          split at h
          · rename_i pile' t' hu
            obtain ⟨piled, same⟩ := unwind?_fits ho hp (.operand hk) nofun nofun hu
            obtain ⟨fits, frontier⟩ := fits_of_climb_piled piled h
            refine ⟨fits, frontier.trans ?_⟩
            rw [text, ← List.append_assoc, same]
            simp [Operation.frontier]
          · cases h
        · cases h
      · cases h

/-- What is found fits. -/
theorem fits_of_climb (h : ops.climb r [] w = .found t) : ops.Fits r t ∧ t.frontier = w :=
  fits_of_climb_piled .nil h

/-! ## Tokens in the wrong place -/

omit [DecidableEq T] in
theorem Alternates.append (h : ops.Alternates r w) {v : List K} (hv : ops.Alternates r v)
    (ho : r.terminal o ∈ ops.operators) : ops.Alternates r (w ++ o :: v) := by
  induction h with
  | single hk => exact .more hk ho hv
  | more hk ho' _ ih => exact .more hk ho' ih

/-- The tokens of an operation that fits alternate. -/
theorem Fits.alternates (h : ops.Fits r t) : ops.Alternates r t.frontier := by
  induction h with
  | operand hk => exact .single hk
  | join _ _ ho _ _ ihl ihr => exact ihl.append ihr ho

/-- Where tokens alternate each is in its place. -/
theorem Alternates.climb_ne (h : ops.Alternates r w) :
    ∀ pile : Pile K, ops.climb r pile w ≠ .malformed := by
  induction h with
  | single hk =>
      intro pile hc
      rw [climb, if_pos hk, goOn] at hc
      cases hc
  | more hk ho _ ih =>
      intro pile hc
      rw [climb, if_pos hk, goOn, if_pos ho] at hc
      split at hc
      · exact ih _ hc
      · cases hc

end Operators

end BottomUp
