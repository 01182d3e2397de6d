import BottomUp.Grammar.Derivation
import BottomUp.Proofs.First

/-!
# FIRST sets are exact

A sequence vanishes if and only if it derives the empty string (`vanishes_iff`), and a
terminal begins it if and only if it derives a string that begins with the terminal
(`begins_iff`).  So no FIRST set lacks anything or has anything to spare.

One half reads derivations off the rounds that find nullable nonterminals and off the
openings that a nonterminal reaches.  The other half goes back over a derivation one step
at a time: what a right-hand side begins with, its left-hand side begins with.  It holds of
all sets that are closed in this way (`Closed`).

A lookahead *leads* a string if it is what shows at the left of something that the string
derives: a terminal, or the end of the input where nothing is left.
-/

namespace BottomUp

variable {T N V : Type} {g : Grammar T N V} {a b c : List (Symbol T N)}

/-! ## Derivations side by side -/

/-- A place in two lists side by side is in one of them. -/
theorem place_of_append {α : Type} {a b left right : List α} {x : α}
    (h : a ++ b = left ++ x :: right) :
    (∃ between, a = left ++ x :: between ∧ right = between ++ b) ∨
      ∃ between, left = a ++ between ∧ b = between ++ x :: right := by
  rcases List.append_eq_append_iff.mp h with ⟨between, rfl, rfl⟩ | ⟨between, rfl, hr⟩
  · exact .inr ⟨between, rfl, rfl⟩
  · cases between with
    | nil => exact .inr ⟨[], by simp, hr.symm⟩
    | cons y between =>
        rw [List.cons_append, List.cons.injEq] at hr
        obtain ⟨rfl, rfl⟩ := hr
        exact .inl ⟨between, rfl, rfl⟩

namespace Grammar

/-- A step within two strings side by side is a step within one of them. -/
theorem Rewrites.split (h : g.Rewrites (a ++ b) c) :
    (∃ a', c = a' ++ b ∧ g.Rewrites a a') ∨ ∃ b', c = a ++ b' ∧ g.Rewrites b b' := by
  generalize hab : a ++ b = whole at h
  cases h with
  | @apply p left right hp =>
      rcases place_of_append hab with ⟨between, rfl, rfl⟩ | ⟨between, rfl, rfl⟩
      · refine .inl ⟨left ++ p.rhs ++ between, ?_, .apply left between hp⟩
        simp only [List.append_assoc]
      · refine .inr ⟨between ++ p.rhs ++ right, ?_, .apply between right hp⟩
        simp only [List.append_assoc]

namespace Derives

/-- What two strings derive side by side is what one derives and then what the other
derives. -/
theorem split (h : g.Derives (a ++ b) c) :
    ∃ c₁ c₂, c = c₁ ++ c₂ ∧ g.Derives a c₁ ∧ g.Derives b c₂ := by
  induction h with
  | refl => exact ⟨a, b, rfl, .refl, .refl⟩
  | tail _ step ih =>
      obtain ⟨c₁, c₂, rfl, h₁, h₂⟩ := ih
      rcases step.split with ⟨d₁, rfl, within⟩ | ⟨d₂, rfl, within⟩
      · exact ⟨d₁, c₂, rfl, h₁.tail within, h₂⟩
      · exact ⟨c₁, d₂, rfl, h₁, h₂.tail within⟩

/-- Terminals are not rewritten. -/
theorem eq_of_terminals {w : List T} (h : g.Derives (w.map .terminal) c) :
    c = w.map .terminal := by
  induction h with
  | refl => rfl
  | tail _ step ih =>
      subst ih
      generalize hw : w.map Symbol.terminal = whole at step
      cases step with
      | @apply p left right _ =>
          have : Symbol.nonterminal p.lhs ∈ w.map Symbol.terminal := by simp [hw]
          obtain ⟨_, _, he⟩ := List.mem_map.mp this
          cases he

/-- A string vanishes symbol by symbol. -/
theorem nil_of_forall : ∀ {symbols : List (Symbol T N)},
    (∀ s ∈ symbols, g.Derives [s] []) → g.Derives symbols []
  | [], _ => .refl
  | s :: _, h =>
      (h s List.mem_cons_self).append (nil_of_forall fun s' hs => h s' (List.mem_cons_of_mem _ hs))

end Derives

/-! ## What FIRST sets hold is derived -/

variable [Ordered N]

theorem derives_nil_of_isOneOf {known : SortedSet N} {symbols : List (Symbol T N)}
    (hk : ∀ n ∈ known, g.Derives [.nonterminal n] [])
    (h : ∀ s ∈ symbols, s.isOneOf known = true) : g.Derives symbols [] := by
  refine .nil_of_forall fun s hs => ?_
  have := h s hs
  cases s with
  | terminal t => cases this
  | nonterminal n => exact hk n (of_decide_eq_true this)

/-- Rounds add only what derives the empty string. -/
theorem derives_nil_of_mem_nullableFrom {n : N} : ∀ {rounds : Nat} {known : SortedSet N},
    (∀ m ∈ known, g.Derives [.nonterminal m] []) → n ∈ g.nullableFrom rounds known →
      g.Derives [.nonterminal n] []
  | 0, _, hk, h => hk n h
  | rounds + 1, known, hk, h => by
      rw [nullableFrom] at h
      split at h
      · exact hk n h
      · refine derives_nil_of_mem_nullableFrom (fun m hm => ?_) h
        cases SortedSet.mem_insertAll.mp hm with
        | inl hm =>
            obtain ⟨_, p, hp, rfl, hs⟩ := mem_newlyNullable.mp hm
            exact (Derives.of_production hp).trans (derives_nil_of_isOneOf hk hs)
        | inr hm => exact hk m hm

theorem derives_nil_of_nullables {symbols : List (Symbol T N)}
    (h : ∀ s ∈ symbols, s.isOneOf g.nullables = true) : g.Derives symbols [] :=
  derives_nil_of_isOneOf (fun _ hn => derives_nil_of_mem_nullableFrom
    (fun _ hm => absurd hm (SortedSet.not_mem_empty _)) hn) h

/-- A symbol in the opening of a string can be brought to its left end. -/
theorem exists_derives_of_mem_opening {s : Symbol T N} : ∀ {symbols : List (Symbol T N)},
    s ∈ opening g.nullables symbols → ∃ rest, g.Derives symbols (s :: rest)
  | [], h => absurd h List.not_mem_nil
  | s' :: symbols, h => by
      rw [opening] at h
      cases List.mem_cons.mp h with
      | inl he => exact ⟨symbols, he ▸ .refl⟩
      | inr h =>
          split at h
          · rename_i hn
            obtain ⟨rest, hr⟩ := exists_derives_of_mem_opening h
            have vanishes : g.Derives [s'] [] :=
              derives_nil_of_nullables fun _ hs => List.mem_singleton.mp hs ▸ hn
            exact ⟨rest, vanishes.append hr⟩
          · exact absurd h List.not_mem_nil

theorem exists_derives_of_mem_openingSymbols {n : N} {s : Symbol T N}
    (h : s ∈ g.openingSymbols g.nullables n) :
    ∃ rest, g.Derives [.nonterminal n] (s :: rest) := by
  obtain ⟨p, hp, rfl, hs⟩ := mem_openingSymbols.mp h
  obtain ⟨rest, hr⟩ := exists_derives_of_mem_opening hs
  exact ⟨rest, (Derives.of_production hp).trans hr⟩

/-- What shows at the left of a corner shows at the left of the nonterminal. -/
theorem exists_derives_of_corner {n m : N} (h : Generated g.corners [n] m) :
    ∃ rest, g.Derives [.nonterminal n] (.nonterminal m :: rest) := by
  induction h with
  | seed h => exact ⟨[], List.mem_singleton.mp h ▸ .refl⟩
  | step _ hc ih =>
      obtain ⟨rest, hr⟩ := ih
      obtain ⟨more, hm⟩ := exists_derives_of_mem_openingSymbols (mem_corners.mp hc)
      exact ⟨more ++ rest, hr.trans (hm.append (.refl (a := rest)))⟩

end Grammar

/-! ## What is derived is in FIRST sets -/

namespace FirstSets

variable [Ordered T] [Ordered N]

section

variable {first : FirstSets T N} {t : T}

theorem vanishes_append : first.Vanishes (a ++ b) ↔ first.Vanishes a ∧ first.Vanishes b :=
  List.forall_mem_append

theorem begins_append : ∀ {a b : List (Symbol T N)},
    first.Begins t (a ++ b) ↔ first.Begins t a ∨ first.Vanishes a ∧ first.Begins t b
  | [], _ => by simp [Begins]
  | s :: a, b => by
      simp only [List.cons_append, Begins, begins_append, vanishes_cons]
      constructor
      · rintro (h | ⟨hn, h | ⟨hv, h⟩⟩)
        · exact .inl (.inl h)
        · exact .inl (.inr ⟨hn, h⟩)
        · exact .inr ⟨⟨hn, hv⟩, h⟩
      · rintro ((h | ⟨hn, h⟩) | ⟨⟨hn, hv⟩, h⟩)
        · exact .inl h
        · exact .inr ⟨hn, .inl h⟩
        · exact .inr ⟨hn, .inr ⟨hv, h⟩⟩

/-- What can show at the left of two parts shows through the second one. -/
theorem mem_ofSequence_append {x y z : Lookahead T} (hx : x ∈ first.ofSequence a y)
    (hy : y ∈ first.ofSequence b z) : x ∈ first.ofSequence (a ++ b) z := by
  rcases mem_ofSequence.mp hx with ⟨t, rfl, h⟩ | ⟨rfl, h⟩
  · exact mem_ofSequence.mpr (.inl ⟨t, rfl, begins_append.mpr (.inl h)⟩)
  · rcases mem_ofSequence.mp hy with ⟨t, rfl, hb⟩ | ⟨rfl, hv⟩
    · exact mem_ofSequence.mpr (.inl ⟨t, rfl, begins_append.mpr (.inr ⟨h, hb⟩)⟩)
    · exact mem_ofSequence.mpr (.inr ⟨rfl, vanishes_append.mpr ⟨h, hv⟩⟩)

theorem begins_terminal : first.Begins t (.terminal t :: a) :=
  .inl (by simp [ofSymbol])

end

/-- What shows at the left of a right-hand side shows at the left of its left-hand side. -/
structure Closed (first : FirstSets T N) (g : Grammar T N V) : Prop where
  vanishes {p : Production T N V} : p ∈ g.productions → first.Vanishes p.rhs →
    (first.ofSymbol (.nonterminal p.lhs)).nullable = true
  begins {p : Production T N V} {t : T} : p ∈ g.productions → first.Begins t p.rhs →
    t ∈ (first.ofSymbol (.nonterminal p.lhs)).terminals

theorem closed_of : (of g).Closed g := ⟨nullable_of_vanishes, mem_terminals_of_begins⟩

section

variable {first : FirstSets T N}

/-- A string vanishes if what it is rewritten to vanishes. -/
theorem Closed.vanishes_of_rewrites (closed : first.Closed g) (h : g.Rewrites a b)
    (hb : first.Vanishes b) : first.Vanishes a := by
  cases h with
  | apply left right hp =>
      rw [vanishes_append, vanishes_append] at hb
      obtain ⟨⟨hl, hrhs⟩, hr⟩ := hb
      exact vanishes_append.mpr ⟨hl, vanishes_cons.mpr ⟨closed.vanishes hp hrhs, hr⟩⟩

/-- What begins a string begins the string that it is rewritten from. -/
theorem Closed.begins_of_rewrites (closed : first.Closed g) {t : T} (h : g.Rewrites a b)
    (hb : first.Begins t b) : first.Begins t a := by
  cases h with
  | apply left right hp =>
      rw [begins_append]
      rw [begins_append, begins_append, vanishes_append] at hb
      rcases hb with (hl | ⟨hl, hrhs⟩) | ⟨⟨hl, hv⟩, hr⟩
      · exact .inl hl
      · exact .inr ⟨hl, .inl (closed.begins hp hrhs)⟩
      · exact .inr ⟨hl, .inr ⟨closed.vanishes hp hv, hr⟩⟩

/-- What derives the empty string vanishes by any closed sets. -/
theorem Closed.vanishes_of_derives (closed : first.Closed g) (h : g.Derives a []) :
    first.Vanishes a := by
  have back : ∀ {b}, g.Derives a b → first.Vanishes b → first.Vanishes a := by
    intro b h
    induction h with
    | refl => exact id
    | tail _ step ih => exact fun hb => ih (closed.vanishes_of_rewrites step hb)
  exact back h vanishes_nil

/-- A terminal at the left of what a string derives begins it by any closed sets. -/
theorem Closed.begins_of_derives (closed : first.Closed g) {t : T} {rest : List (Symbol T N)}
    (h : g.Derives a (.terminal t :: rest)) : first.Begins t a := by
  have back : ∀ {b}, g.Derives a b → first.Begins t b → first.Begins t a := by
    intro b h
    induction h with
    | refl => exact id
    | tail _ step ih => exact fun hb => ih (closed.begins_of_rewrites step hb)
  exact back h begins_terminal

end

theorem vanishes_iff : (of g).Vanishes a ↔ g.Derives a [] := by
  constructor
  · intro h
    refine Grammar.derives_nil_of_nullables fun s hs => ?_
    rw [← nullable_ofSymbol]
    exact h s hs
  · exact closed_of.vanishes_of_derives

theorem begins_iff {t : T} : (of g).Begins t a ↔ ∃ rest, g.Derives a (.terminal t :: rest) := by
  constructor
  · intro h
    obtain ⟨s, hs, ht⟩ := exists_mem_opening_of_begins h
    obtain ⟨rest, hr⟩ := Grammar.exists_derives_of_mem_opening hs
    cases s with
    | terminal t' =>
        obtain rfl : t = t' := by simpa [ofSymbol] using ht
        exact ⟨rest, hr⟩
    | nonterminal n =>
        obtain ⟨_, m, hm, ht⟩ := mem_terminals_ofSymbol.mp ht
        obtain ⟨after, ha⟩ := Grammar.exists_derives_of_corner hm
        obtain ⟨more, ho⟩ := Grammar.exists_derives_of_mem_openingSymbols ht
        have shows := (ha.append (.refl (a := rest))).trans
          ((ho.append (.refl (a := after))).append (.refl (a := rest)))
        exact ⟨more ++ after ++ rest, hr.trans shows⟩
  · rintro ⟨rest, h⟩
    exact closed_of.begins_of_derives h

end FirstSets

/-! ## What leads a string -/

/-- What shows at the left of something that the string derives: a terminal, or the end of
the input if that is empty. -/
def Grammar.Leads (g : Grammar T N V) (symbols : List (Symbol T N)) : Lookahead T → Prop
  | some t => ∃ rest, g.Derives symbols (.terminal t :: rest)
  | none => g.Derives symbols []

namespace FirstSets

variable [Ordered T] [Ordered N]

/-- What can show at the left of a part that a lookahead of the rest follows leads the
whole. -/
theorem leads_of_mem_ofSequence {x y : Lookahead T} (hy : g.Leads b y)
    (hx : x ∈ (of g).ofSequence a y) : g.Leads (a ++ b) x := by
  rcases mem_ofSequence.mp hx with ⟨t, rfl, h⟩ | ⟨rfl, h⟩
  · obtain ⟨rest, h⟩ := begins_iff.mp h
    exact ⟨rest ++ b, h.append .refl⟩
  · have vanishes := vanishes_iff.mp h
    cases x with
    | none => exact vanishes.append hy
    | some t =>
        obtain ⟨rest, h⟩ := hy
        exact ⟨rest, vanishes.append h⟩

/-- What can show at the left of what a part derives can show at the left of the part. -/
theorem mem_ofSequence_of_derives {x y : Lookahead T} (h : g.Derives a b)
    (hx : x ∈ (of g).ofSequence b y) : x ∈ (of g).ofSequence a y := by
  rcases mem_ofSequence.mp hx with ⟨t, rfl, hb⟩ | ⟨rfl, hv⟩
  · obtain ⟨rest, hb⟩ := begins_iff.mp hb
    exact mem_ofSequence.mpr (.inl ⟨t, rfl, begins_iff.mpr ⟨rest, h.trans hb⟩⟩)
  · exact mem_ofSequence.mpr (.inr ⟨rfl, vanishes_iff.mpr (h.trans (vanishes_iff.mp hv))⟩)

/-- What shows at the left of terminals that a part derives can show at the left of the
part. -/
theorem head?_mem_ofSequence {w : List T} (h : g.Derives a (w.map .terminal)) (z : List T) :
    (w ++ z).head? ∈ (of g).ofSequence a z.head? := by
  cases w with
  | nil => exact mem_ofSequence.mpr (.inr ⟨rfl, vanishes_iff.mpr h⟩)
  | cons t w => exact mem_ofSequence.mpr (.inl ⟨t, rfl, begins_iff.mpr ⟨w.map .terminal, h⟩⟩)

end FirstSets

end BottomUp
