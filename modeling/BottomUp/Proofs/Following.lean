import BottomUp.Proofs.Follow
import BottomUp.Proofs.Leading
import Mathlib.Data.Set.Basic

/-!
# FOLLOW sets are exact

A terminal is in the FOLLOW set of a nonterminal if and only if it stands right after the
nonterminal in what some nonterminal of the grammar derives.  The end of the input is in it
if and only if the start symbol derives a string that ends in the nonterminal
(`mem_lookaheads_iff_canFollow`).

One half reads derivations off the owners that a nonterminal reaches.  The other half goes
along a derivation and looks at every nonterminal in every string: what shows after it, where
what follows the first nonterminal of all shows at the right end, is in its FOLLOW set.  A
step puts a right-hand side in a place, and there are three cases.  A nonterminal to the left
of the place sees the right-hand side instead of the left-hand side, and no more shows for
that.  One to the right of it sees what it saw before.  For one of the right-hand side itself
the sets have to be closed (`Closed`).
-/

namespace BottomUp

variable {T N V : Type} {g : Grammar T N V}

namespace FirstSets

variable [Ordered T] [Ordered N] {first : FirstSets T N} {a b : List (Symbol T N)}
  {known known' : Set (Lookahead T)}

/-! ## What shows from a place on -/

/-- What shows at the left of a string, if one of some lookaheads follows it. -/
def shown (first : FirstSets T N) (symbols : List (Symbol T N)) (known : Set (Lookahead T)) :
    Set (Lookahead T) :=
  {x | (∃ t, x = some t ∧ first.Begins t symbols) ∨ x ∈ known ∧ first.Vanishes symbols}

@[simp] theorem shown_nil : first.shown [] known = known := by
  simp [shown, Begins]

/-- What shows at the left of two parts shows through the second one. -/
theorem shown_append : first.shown (a ++ b) known = first.shown a (first.shown b known) := by
  ext x
  simp only [shown, begins_append, vanishes_append, Set.mem_ofPred_eq]
  constructor
  · rintro (⟨t, rfl, h | ⟨ha, hb⟩⟩ | ⟨hx, ha, hb⟩)
    · exact .inl ⟨t, rfl, h⟩
    · exact .inr ⟨.inl ⟨t, rfl, hb⟩, ha⟩
    · exact .inr ⟨.inr ⟨hx, hb⟩, ha⟩
  · rintro (⟨t, rfl, h⟩ | ⟨⟨t, rfl, hb⟩ | ⟨hx, hb⟩, ha⟩)
    · exact .inl ⟨t, rfl, .inl h⟩
    · exact .inl ⟨t, rfl, .inr ⟨ha, hb⟩⟩
    · exact .inr ⟨hx, ha, hb⟩

theorem shown_mono (h : known ⊆ known') : first.shown a known ⊆ first.shown a known' := by
  rintro x (hx | ⟨hx, ha⟩)
  · exact .inl hx
  · exact .inr ⟨h hx, ha⟩

/-- No more shows when a string is rewritten. -/
theorem Closed.shown_of_rewrites (closed : first.Closed g) (h : g.Rewrites a b) :
    first.shown b known ⊆ first.shown a known := by
  rintro x (⟨t, rfl, hb⟩ | ⟨hx, hb⟩)
  · exact .inl ⟨t, rfl, closed.begins_of_rewrites h hb⟩
  · exact .inr ⟨hx, closed.vanishes_of_rewrites h hb⟩

end FirstSets

/-! ## What can stand after a nonterminal -/

namespace Grammar

/-- A lookahead can stand after a nonterminal: a terminal in what some nonterminal of the
grammar derives, and the end of the input in what the start symbol derives. -/
def CanFollow (g : Grammar T N V) (start n : N) : Lookahead T → Prop
  | some t => ∃ m ∈ g.nonterminals, ∃ left right,
      g.Derives [.nonterminal m] (left ++ .nonterminal n :: .terminal t :: right)
  | none => start ∈ g.nonterminals ∧ ∃ left,
      g.Derives [.nonterminal start] (left ++ [.nonterminal n])

variable [Ordered T] [Ordered N] {n m : N}

/-- What a left-hand side derives where a nonterminal of its right-hand side and the rest of
that are rewritten. -/
theorem derives_of_mem_occurrences {lhs : N} {rest left right : List (Symbol T N)}
    (h : (lhs, rest) ∈ g.occurrences n) (hn : g.Derives [.nonterminal n] left)
    (hr : g.Derives rest right) :
    ∃ before, g.Derives [.nonterminal lhs] (before ++ left ++ right) := by
  obtain ⟨p, hp, rfl, before, he⟩ := mem_occurrences.mp h
  refine ⟨before, (Derives.of_production hp).trans ?_⟩
  have parts := (Derives.refl (a := before)).append (hn.append hr)
  simpa [he, List.append_assoc] using parts

/-- A nonterminal stands at the end of what its owners derive, and what owns those. -/
theorem exists_derives_of_owner (h : Generated g.owners [n] m) :
    ∃ left, g.Derives [.nonterminal m] (left ++ [.nonterminal n]) := by
  induction h with
  | seed hm => exact ⟨[], List.mem_singleton.mp hm ▸ .refl⟩
  | step _ ho ih =>
      obtain ⟨left, hl⟩ := ih
      obtain ⟨rest, occurs, vanishes⟩ := mem_owners.mp ho
      obtain ⟨before, hb⟩ :=
        derives_of_mem_occurrences occurs hl (FirstSets.vanishes_iff.mp vanishes)
      exact ⟨before ++ left, by simpa [List.append_assoc] using hb⟩

theorem mem_nonterminals_of_owner (hn : n ∈ g.nonterminals) (h : Generated g.owners [n] m) :
    m ∈ g.nonterminals := by
  cases h with
  | seed hm => exact List.mem_singleton.mp hm ▸ hn
  | step _ ho =>
      obtain ⟨_, occurs, _⟩ := mem_owners.mp ho
      obtain ⟨p, hp, rfl, _⟩ := mem_occurrences.mp occurs
      exact lhs_mem_nonterminals hp

end Grammar

/-! ## Closed sets hold all that can follow -/

namespace FollowSets

variable [Ordered T] [Ordered N] {start n m : N} {follow : FollowSets T N}

/-- The lookaheads that can stand after a nonterminal, as a set. -/
def after (follow : FollowSets T N) (n : N) : Set (Lookahead T) := {a | a ∈ follow.lookaheads n}

/-- What shows after a nonterminal of a right-hand side follows it, if what follows the
left-hand side shows at the right end.  The end of the input follows the start symbol. -/
structure Closed (follow : FollowSets T N) (g : Grammar T N V) (start : N) : Prop where
  spreads {p : Production T N V} {before rest : List (Symbol T N)} {n : N} :
    p ∈ g.productions → p.rhs = before ++ .nonterminal n :: rest →
      (FirstSets.of g).shown rest (follow.after p.lhs) ⊆ follow.after n
  ends : start ∈ g.nonterminals → none ∈ follow.lookaheads start

theorem closed_of : (of g start).Closed g start where
  spreads {p before rest n} hp hr := by
    have listed : n ∈ g.nonterminals := Grammar.mem_nonterminals_of_mem_rhs hp (by simp [hr])
    have occurs : (p.lhs, rest) ∈ g.occurrences n :=
      Grammar.mem_occurrences.mpr ⟨p, hp, rfl, before, hr⟩
    rintro a (⟨t, rfl, h⟩ | ⟨ha, hv⟩)
    · have seed : Generated g.owners [n] n := .seed List.mem_cons_self
      exact mem_lookaheads.mpr ⟨listed, n, seed, .inl ⟨t, rfl, p.lhs, rest, occurs, h⟩⟩
    · exact mem_lookaheads_of_mem hp hr ha (FirstSets.mem_ofSequence.mpr (.inr ⟨rfl, hv⟩))
  ends := none_mem_lookaheads_start

/-- What shows after a nonterminal of a derived string follows it by closed sets, if what
follows the first nonterminal of all shows at the right end. -/
theorem Closed.shown_subset (closed : follow.Closed g start) {whole : List (Symbol T N)}
    (h : g.Derives [.nonterminal m] whole) : ∀ {left rest : List (Symbol T N)} {n : N},
    whole = left ++ .nonterminal n :: rest →
      (FirstSets.of g).shown rest (follow.after m) ⊆ follow.after n := by
  induction h with
  | refl =>
      intro left rest n he
      cases left with
      | nil =>
          cases he
          rw [FirstSets.shown_nil]
      | cons s left => simp at he
  | tail _ step ih =>
      intro left rest n he
      cases step with
      | @apply p l r hp =>
          rw [List.append_assoc] at he
          rcases place_of_append he with ⟨u, rfl, rfl⟩ | ⟨u, rfl, hu⟩
          · -- to the left of the place
            have rewrites : g.Rewrites (u ++ .nonterminal p.lhs :: r) (u ++ (p.rhs ++ r)) := by
              simpa using Grammar.Rewrites.apply u r hp
            have before := @ih left (u ++ .nonterminal p.lhs :: r) n (by simp)
            exact (FirstSets.closed_of.shown_of_rewrites rewrites).trans before
          · rcases place_of_append hu with ⟨v, hv, rfl⟩ | ⟨v, rfl, rfl⟩
            · -- within the right-hand side
              rw [FirstSets.shown_append]
              exact (FirstSets.shown_mono (ih rfl)).trans (closed.spreads hp hv)
            · -- to the right of the place
              exact @ih (l ++ .nonterminal p.lhs :: v) rest n (by simp)

/-- Closed sets hold all that can follow a nonterminal. -/
theorem Closed.mem_of_canFollow (closed : follow.Closed g start) {a : Lookahead T}
    (h : g.CanFollow start n a) : a ∈ follow.lookaheads n := by
  cases a with
  | some t =>
      obtain ⟨m, _, left, right, hd⟩ := h
      exact closed.shown_subset hd rfl (.inl ⟨t, rfl, FirstSets.begins_terminal⟩)
  | none =>
      obtain ⟨listed, left, hd⟩ := h
      refine closed.shown_subset hd rfl ?_
      rw [FirstSets.shown_nil]
      exact closed.ends listed

/-! ## Exactness -/

theorem mem_lookaheads_iff_canFollow {a : Lookahead T} :
    a ∈ (of g start).lookaheads n ↔ g.CanFollow start n a := by
  constructor
  · intro h
    obtain ⟨listed, m, owner, h⟩ := mem_lookaheads.mp h
    obtain ⟨left, hl⟩ := Grammar.exists_derives_of_owner owner
    rcases h with ⟨t, rfl, lhs, rest, occurs, begins⟩ | ⟨rfl, rfl⟩
    · obtain ⟨right, hr⟩ := FirstSets.begins_iff.mp begins
      obtain ⟨before, hd⟩ := Grammar.derives_of_mem_occurrences occurs hl hr
      obtain ⟨p, hp, rfl, _⟩ := Grammar.mem_occurrences.mp occurs
      exact ⟨p.lhs, Grammar.lhs_mem_nonterminals hp, before ++ left, right, by simpa using hd⟩
    · exact ⟨Grammar.mem_nonterminals_of_owner listed owner, left, hl⟩
  · exact closed_of.mem_of_canFollow

/-- A FOLLOW set is listed without repetition. -/
theorem nodup_lookaheads (follow : FollowSets T N) (n : N) : (follow.lookaheads n).Nodup := by
  rw [lookaheads]
  split
  · rename_i set _
    have terminals : (set.terminals.toList.map some).Nodup :=
      List.pairwise_map.mpr (set.terminals.nodup_toList.imp fun h he => h (Option.some.inj he))
    refine List.nodup_append.mpr ⟨terminals, ?_, ?_⟩
    · split
      · simp
      · exact List.nodup_nil
    · rintro a ha b hb rfl
      split at hb
      · simp_all
      · exact List.not_mem_nil hb
  · exact List.nodup_nil

end FollowSets

end BottomUp
