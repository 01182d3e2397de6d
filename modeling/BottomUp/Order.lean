/-!
# Ordered types

Grammar symbols, items and state numbers are kept in sorted sets and maps, so that a set has
one representation and every listing comes out in one order.  An *ordered type* is a type
with a comparison that is total and transitive and calls equal only what is equal.

Strings and characters are ordered by code point and numbers by size.  An optional value
puts `none` first.  The unit type has one value and nothing to compare.
-/

namespace BottomUp

/-- A type with a total comparison that agrees with equality.  The comparison is core's
`compare`, so core's lemmas about it apply. -/
class Ordered (α : Type) extends Ord α, Std.TransOrd α, Std.LawfulEqOrd α where
  /-- Equality is decided. -/
  decEq : (a b : α) → Decidable (a = b)

instance (priority := low) {α : Type} [Ordered α] : DecidableEq α := Ordered.decEq

/-- Membership in a list is decided by the equality of its members. -/
instance {α : Type} [Ordered α] (a : α) (l : List α) : Decidable (a ∈ l) := inferInstance

namespace Ordered

variable {α : Type} [Ordered α]

/-- `a` comes strictly before `b`. -/
abbrev Before (a b : α) : Prop := compare a b = .lt

theorem compare_eq_iff {a b : α} : compare a b = .eq ↔ a = b :=
  Std.LawfulEqOrd.compare_eq_iff_eq

theorem compare_gt_iff {a b : α} : compare a b = .gt ↔ Before b a :=
  Std.OrientedCmp.gt_iff_lt

theorem Before.trans {a b c : α} (h : Before a b) (h' : Before b c) : Before a c :=
  Std.TransCmp.lt_trans h h'

theorem Before.ne {a b : α} (h : Before a b) : a ≠ b := by
  rintro rfl
  simp [Before, Std.ReflOrd.compare_self] at h

theorem Before.irrefl (a : α) : ¬ Before a a := fun h => h.ne rfl

theorem Before.asymm {a b : α} (h : Before a b) : ¬ Before b a :=
  fun h' => Before.irrefl a (h.trans h')

/-- Of two different values one comes first. -/
theorem before_or_before {a b : α} (h : a ≠ b) : Before a b ∨ Before b a := by
  cases hc : compare a b with
  | lt => exact .inl hc
  | eq => exact absurd (compare_eq_iff.mp hc) h
  | gt => exact .inr (compare_gt_iff.mp hc)

end Ordered

/-! ## Ascending lists -/

/-- A list that ascends strictly, by any relation that never holds both ways, is fixed by
its members. -/
theorem eq_of_mem_iff {α : Type} {r : α → α → Prop} (asymm : ∀ {a b}, r a b → ¬ r b a) :
    ∀ {l l' : List α}, l.Pairwise r → l'.Pairwise r → (∀ a, a ∈ l ↔ a ∈ l') → l = l'
  | [], [], _, _, _ => rfl
  | [], b :: _, _, _, h => absurd ((h b).mpr List.mem_cons_self) List.not_mem_nil
  | a :: _, [], _, _, h => absurd ((h a).mp List.mem_cons_self) List.not_mem_nil
  | a :: as, b :: bs, ha, hb, h => by
      have ha' := List.pairwise_cons.mp ha
      have hb' := List.pairwise_cons.mp hb
      have hab : a = b := by
        cases List.mem_cons.mp ((h a).mp List.mem_cons_self) with
        | inl he => exact he
        | inr hm =>
            cases List.mem_cons.mp ((h b).mpr List.mem_cons_self) with
            | inl he => exact he.symm
            | inr hm' => exact absurd (ha'.1 b hm') (asymm (hb'.1 a hm))
      subst hab
      have irrefl : ¬ r a a := fun h => asymm h h
      have tails : ∀ c, c ∈ as ↔ c ∈ bs := by
        intro c
        constructor
        · intro hc
          cases List.mem_cons.mp ((h c).mp (List.mem_cons_of_mem _ hc)) with
          | inl he => exact absurd (he ▸ ha'.1 c hc) irrefl
          | inr hm => exact hm
        · intro hc
          cases List.mem_cons.mp ((h c).mpr (List.mem_cons_of_mem _ hc)) with
          | inl he => exact absurd (he ▸ hb'.1 c hc) irrefl
          | inr hm => exact hm
      rw [eq_of_mem_iff asymm ha'.2 hb'.2 tails]

/-! ## The ordered types of the library -/

instance : Ordered Nat := { decEq := instDecidableEqNat }
instance : Ordered String := { decEq := instDecidableEqString }
instance : Ordered Char := { decEq := instDecidableEqChar }
instance : Ordered Int64 := { decEq := instDecidableEqInt64 }

instance {α : Type} [Ordered α] : Ordered (Option α) := { decEq := Option.instDecidableEq }

instance : Ordered Unit where
  compare _ _ := .eq
  eq_swap := rfl
  isLE_trans _ _ := rfl
  compare_self := rfl
  eq_of_compare _ := rfl
  decEq _ _ := .isTrue rfl

end BottomUp
