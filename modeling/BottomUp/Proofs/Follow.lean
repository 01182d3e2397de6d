import BottomUp.Follow
import BottomUp.Proofs.First

/-!
# FOLLOW sets are closed

A lookahead follows a nonterminal if it can begin what stands after it on a right-hand
side, or if that can vanish and the lookahead follows the left-hand side
(`mem_lookaheads_of_mem`).  The end of the input follows the start symbol, and nothing
else does where no right-hand side mentions it (`eq_none_of_mem_lookaheads_start`).

The *owners* of a nonterminal are the left-hand sides at whose ends it can stand.
`mem_lookaheads` says that a FOLLOW set is read off what the owners reach.
-/

namespace BottomUp

variable {T N V : Type} [Ordered T] [Ordered N]

namespace Symbol

theorem mem_restsAfter {n : N} {rest : List (Symbol T N)} :
    ∀ {symbols : List (Symbol T N)},
      rest ∈ restsAfter n symbols ↔ ∃ before, symbols = before ++ .nonterminal n :: rest
  | [] => by simp [restsAfter]
  | s :: symbols => by
      have split (h : ∃ before, s :: symbols = before ++ .nonterminal n :: rest) :
          s = .nonterminal n ∧ symbols = rest ∨ rest ∈ restsAfter n symbols := by
        obtain ⟨before, h⟩ := h
        cases before with
        | nil =>
            simp only [List.nil_append, List.cons.injEq] at h
            exact .inl h
        | cons s' before =>
            simp only [List.cons_append, List.cons.injEq] at h
            exact .inr (mem_restsAfter.mpr ⟨before, h.2⟩)
      have later (h : rest ∈ restsAfter n symbols) :
          ∃ before, s :: symbols = before ++ .nonterminal n :: rest := by
        obtain ⟨before, h⟩ := mem_restsAfter.mp h
        exact ⟨s :: before, by rw [h, List.cons_append]⟩
      rw [restsAfter]
      by_cases hs : s = .nonterminal n
      · rw [if_pos hs, List.mem_cons]
        constructor
        · rintro (rfl | h)
          · exact ⟨[], by rw [hs, List.nil_append]⟩
          · exact later h
        · intro h
          exact (split h).imp (fun h => h.2.symm) id
      · rw [if_neg hs]
        exact ⟨later, fun h => (split h).resolve_left fun h => hs h.1⟩

end Symbol

/-! ## Owners -/

namespace Grammar

variable {g : Grammar T N V}

theorem mem_occurrences {lhs n : N} {rest : List (Symbol T N)} :
    (lhs, rest) ∈ g.occurrences n ↔
      ∃ p ∈ g.productions, p.lhs = lhs ∧ ∃ before, p.rhs = before ++ .nonterminal n :: rest := by
  simp only [occurrences, List.mem_flatMap, List.mem_map, Prod.mk.injEq, Symbol.mem_restsAfter]
  constructor
  · rintro ⟨p, hp, _, hb, rfl, rfl⟩
    exact ⟨p, hp, rfl, hb⟩
  · rintro ⟨p, hp, rfl, hb⟩
    exact ⟨p, hp, _, hb, rfl, rfl⟩

/-- The left-hand sides at whose ends a nonterminal can stand. -/
def owners (g : Grammar T N V) (n : N) : List N := vanishing (g.continuations (.of g) n)

theorem mem_owners {lhs n : N} :
    lhs ∈ g.owners n ↔ ∃ rest, (lhs, rest) ∈ g.occurrences n ∧ (FirstSets.of g).Vanishes rest := by
  simp only [owners, vanishing, continuations, List.mem_filterMap, List.mem_map, Prod.exists]
  constructor
  · rintro ⟨lhs, _, ⟨_, rest, ho, he⟩, h⟩
    cases he
    split at h
    · rename_i hv
      cases h
      exact ⟨rest, ho, FirstSets.none_mem_ofSequence_none.mp hv⟩
    · cases h
  · rintro ⟨rest, ho, hv⟩
    have hv := FirstSets.none_mem_ofSequence_none.mpr hv
    exact ⟨lhs, _, ⟨lhs, rest, ho, rfl⟩, by rw [if_pos hv]⟩

theorem mem_terminalsAmong {n : N} {t : T} :
    t ∈ terminalsAmong (g.continuations (.of g) n) ↔
      ∃ lhs rest, (lhs, rest) ∈ g.occurrences n ∧ (FirstSets.of g).Begins t rest := by
  simp only [terminalsAmong, continuations, List.mem_flatMap, List.mem_map, List.mem_filterMap,
    Prod.exists, SortedSet.mem_toList, id_eq, exists_eq_right]
  constructor
  · rintro ⟨lhs, _, ⟨_, rest, ho, he⟩, h⟩
    cases he
    exact ⟨lhs, rest, ho, FirstSets.some_mem_ofSequence_none.mp h⟩
  · rintro ⟨lhs, rest, ho, h⟩
    exact ⟨lhs, _, ⟨lhs, rest, ho, rfl⟩, FirstSets.some_mem_ofSequence_none.mpr h⟩

theorem mem_reach_owners {n m : N} (hn : n ∈ g.nonterminals) :
    m ∈ reach g.owners g.nonterminals.length [n] ↔ Generated g.owners [n] m := by
  refine mem_reach_iff (fun _ h => List.mem_singleton.mp h ▸ hn) ?_ (Nat.le_refl _)
  intro m _ lhs h
  obtain ⟨_, ho, _⟩ := mem_owners.mp h
  obtain ⟨p, hp, rfl, _⟩ := mem_occurrences.mp ho
  exact lhs_mem_nonterminals hp

end Grammar

/-! ## The sets of a grammar -/

namespace FollowSets

variable {g : Grammar T N V} {start : N}

theorem get?_of (n : N) :
    (of g start).get? n =
      if n ∈ g.nonterminals then some (g.followSet (g.continuations (.of g)) start n)
      else none := by
  simp only [of, get?, Tabulated.get_eq]
  exact SortedMap.get?_ofList_map g.nonterminals

theorem mem_lookaheads_iff {follow : FollowSets T N} {n : N} {b : Lookahead T} :
    b ∈ follow.lookaheads n ↔ ∃ set, follow.get? n = some set ∧
      ((∃ t, b = some t ∧ t ∈ set.terminals) ∨ b = none ∧ set.atEnd = true) := by
  unfold lookaheads
  cases follow.get? n with
  | none => simp
  | some set =>
      simp only [Option.some.injEq, exists_eq_left', List.mem_append, List.mem_map,
        SortedSet.mem_toList]
      refine or_congr (exists_congr fun t => and_comm.trans (and_congr_left fun _ => eq_comm)) ?_
      split <;> simp_all

theorem mem_lookaheads {n : N} {b : Lookahead T} :
    b ∈ (of g start).lookaheads n ↔
      n ∈ g.nonterminals ∧ ∃ m, Generated g.owners [n] m ∧
        ((∃ t, b = some t ∧ ∃ lhs rest,
            (lhs, rest) ∈ g.occurrences m ∧ (FirstSets.of g).Begins t rest) ∨
          b = none ∧ m = start) := by
  rw [mem_lookaheads_iff, get?_of]
  by_cases hn : n ∈ g.nonterminals
  · have reached (m : N) : m ∈ reach (fun m => Grammar.vanishing (g.continuations (.of g) m))
        g.nonterminals.length [n] ↔ Generated g.owners [n] m := Grammar.mem_reach_owners hn
    rw [if_pos hn]
    simp only [Option.some.injEq, exists_eq_left', Grammar.followSet,
      SortedSet.mem_ofList, List.mem_flatMap, Grammar.mem_terminalsAmong, decide_eq_true_eq,
      reached, hn, true_and]
    constructor
    · rintro (⟨t, he, m, hm, h⟩ | ⟨he, h⟩)
      · exact ⟨m, hm, .inl ⟨t, he, h⟩⟩
      · exact ⟨start, h, .inr ⟨he, rfl⟩⟩
    · rintro ⟨m, hm, ⟨t, he, h⟩ | ⟨he, rfl⟩⟩
      · exact .inl ⟨t, he, m, hm, h⟩
      · exact .inr ⟨he, hm⟩
  · simp [hn]

/-- What can stand after a nonterminal on a right-hand side that a lookahead follows,
follows the nonterminal. -/
theorem mem_lookaheads_of_mem {p : Production T N V} {before rest : List (Symbol T N)} {n : N}
    {a b : Lookahead T} (hp : p ∈ g.productions) (hr : p.rhs = before ++ .nonterminal n :: rest)
    (ha : a ∈ (of g start).lookaheads p.lhs) (hb : b ∈ (FirstSets.of g).ofSequence rest a) :
    b ∈ (of g start).lookaheads n := by
  have listed : n ∈ g.nonterminals := Grammar.mem_nonterminals_of_mem_rhs hp (by simp [hr])
  have occurs : (p.lhs, rest) ∈ g.occurrences n :=
    Grammar.mem_occurrences.mpr ⟨p, hp, rfl, before, hr⟩
  have seed : Generated g.owners [n] n := .seed List.mem_cons_self
  refine mem_lookaheads.mpr ⟨listed, ?_⟩
  rcases FirstSets.mem_ofSequence.mp hb with ⟨t, ht, h⟩ | ⟨rfl, hv⟩
  · exact ⟨n, seed, .inl ⟨t, ht, p.lhs, rest, occurs, h⟩⟩
  · obtain ⟨_, m, hm, h⟩ := mem_lookaheads.mp ha
    exact ⟨m, (seed.step (Grammar.mem_owners.mpr ⟨rest, occurs, hv⟩)).trans hm, h⟩

theorem none_mem_lookaheads_start (h : start ∈ g.nonterminals) :
    none ∈ (of g start).lookaheads start :=
  mem_lookaheads.mpr ⟨h, start, .seed List.mem_cons_self, .inr ⟨rfl, rfl⟩⟩

/-- Only the end of the input follows a start symbol that is on no right-hand side. -/
theorem eq_none_of_mem_lookaheads_start {b : Lookahead T}
    (fresh : ∀ p ∈ g.productions, Symbol.nonterminal start ∉ p.rhs)
    (h : b ∈ (of g start).lookaheads start) : b = none := by
  have never (lhs : N) (rest : List (Symbol T N)) : (lhs, rest) ∉ g.occurrences start := by
    intro ho
    obtain ⟨p, hp, _, before, hr⟩ := Grammar.mem_occurrences.mp ho
    exact fresh p hp (by simp [hr])
  have alone : ∀ m, Generated g.owners [start] m → m = start := by
    intro m hm
    induction hm with
    | seed h => exact List.mem_singleton.mp h
    | step _ hs ih =>
        obtain ⟨rest, ho, _⟩ := Grammar.mem_owners.mp hs
        exact absurd (ih ▸ ho) (never _ rest)
  obtain ⟨_, m, hm, h⟩ := mem_lookaheads.mp h
  rcases h with ⟨_, _, lhs, rest, ho, _⟩ | ⟨h, _⟩
  · exact absurd (alone m hm ▸ ho) (never lhs rest)
  · exact h

/-- Only terminals of the grammar follow anything. -/
theorem mem_terminals_of_mem_lookaheads {n : N} {t : T}
    (h : some t ∈ (of g start).lookaheads n) : t ∈ g.terminals := by
  obtain ⟨_, m, _, h⟩ := mem_lookaheads.mp h
  rcases h with ⟨_, he, lhs, rest, ho, hb⟩ | ⟨h, _⟩
  · cases he
    obtain ⟨p, hp, _, before, hr⟩ := Grammar.mem_occurrences.mp ho
    refine FirstSets.mem_terminals_of_begins_suffix hp ?_ hb
    exact hr ▸ (List.suffix_cons _ rest).trans (List.suffix_append before _)
  · cases h

end FollowSets

end BottomUp
