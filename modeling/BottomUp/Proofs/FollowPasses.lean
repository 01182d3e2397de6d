import BottomUp.Proofs.Following
import BottomUp.Proofs.Passes

/-!
# FOLLOW sets by passes

FOLLOW sets can be found by passes over the productions, too.  All sets are empty at first,
apart from the end of the input, which follows the start symbol.  A production goes over its
right-hand side from right to left.  It carries along what can stand after the next symbol,
which at the right end is what follows the left-hand side.  A nonterminal gets what is carried
to it.  Before a symbol that does not vanish only what that begins with is carried on.

The sets change under the hands of a production: what it carries was read off before it
started, while what it has added to a set is there at once.  That does not matter to what it
adds in the end (`facts_grow`).

Such passes come to rest at the FOLLOW sets, whatever the order of the productions, and these
are exact (`follow_exact`).
-/

namespace BottomUp

variable {T N V : Type} [Ordered T] [Ordered N]

namespace FollowSets

/-! ## Passes -/

/-- The sets of the nonterminals of a grammar with the end of the input after the start
symbol and nothing else. -/
def blank (g : Grammar T N V) (start : N) : FollowSets T N :=
  ⟨.ofList (g.nonterminals.map fun n => (n, ⟨.empty, decide (n = start)⟩))⟩

/-- The sets where some more can stand after a nonterminal, if it is listed. -/
def add (follow : FollowSets T N) (n : N) (after : FollowSet T) : FollowSets T N :=
  match follow.get? n with
  | some set =>
      ⟨follow.sets.insert n ⟨set.terminals.union after.terminals, set.atEnd || after.atEnd⟩⟩
  | none => follow

/-- What can stand where a symbol begins, given what can stand after it. -/
def before (first : FirstSets T N) (s : Symbol T N) (after : FollowSet T) : FollowSet T :=
  let set := first.ofSymbol s
  if set.nullable then ⟨set.terminals.union after.terminals, after.atEnd⟩
  else ⟨set.terminals, false⟩

/-- A symbol is gone over: if it is a nonterminal, it gets what is carried along. -/
def goOver (first : FirstSets T N) (s : Symbol T N) :
    FollowSets T N × FollowSet T → FollowSets T N × FollowSet T
  | (follow, after) =>
      let follow' :=
        match s with
        | .terminal _ => follow
        | .nonterminal n => follow.add n after
      (follow', before first s after)

/-- The sets with what the nonterminals of a right-hand side get, from right to left. -/
def grow (first : FirstSets T N) (follow : FollowSets T N) (p : Production T N V) :
    FollowSets T N :=
  match follow.get? p.lhs with
  | some set => (p.rhs.foldr (goOver first) (follow, set)).1
  | none => follow

/-! ## Facts -/

/-- What a set lets stand after a nonterminal. -/
def allows (set : FollowSet T) : Set (Lookahead T) := lookaheadSet set.terminals set.atEnd

theorem allows_injective : Function.Injective (allows (T := T)) := by
  intro set set' h
  obtain ⟨terminals, atEnd⟩ := lookaheadSet_inj h
  exact congrArg₂ FollowSet.mk terminals atEnd

theorem finite_allows (set : FollowSet T) : (allows set).Finite := finite_lookaheadSet _ _

/-- What can stand after each nonterminal. -/
def facts (follow : FollowSets T N) : Set (N × Lookahead T) := follow.sets.facts allows

/-- What the nonterminals of a string get, where some lookaheads can stand at its end. -/
def spread (first : FirstSets T N) (symbols : List (Symbol T N)) (known : Set (Lookahead T)) :
    Set (N × Lookahead T) :=
  {f | ∃ rest ∈ Symbol.restsAfter f.1 symbols, f.2 ∈ first.shown rest known}

variable {g : Grammar T N V} {first : FirstSets T N} {follow follow' : FollowSets T N} {start : N}

theorem mem_facts_iff {f : N × Lookahead T} : f ∈ follow.facts ↔ f.2 ∈ follow.lookaheads f.1 :=
  mem_lookaheads_iff.symm

theorem allows_eq {n : N} {set : FollowSet T} (h : follow.get? n = some set) :
    allows set = follow.after n := by
  ext a
  exact (SortedMap.mem_facts h).symm.trans (mem_facts_iff (f := (n, a)))

theorem allows_before {s : Symbol T N} {after : FollowSet T} :
    allows (before first s after) = first.shown [s] (allows after) := by
  ext a
  rw [before]
  by_cases hn : (first.ofSymbol s).nullable = true
  · cases a <;> simp [allows, FirstSets.shown, FirstSets.Begins, hn]
  · cases a <;> simp [allows, FirstSets.shown, FirstSets.Begins, hn]

theorem facts_add {n : N} {set after : FollowSet T} (h : follow.get? n = some set) :
    (follow.add n after).facts = follow.facts ∪ {f | f.1 = n ∧ f.2 ∈ allows after} := by
  rw [add, h]
  refine SortedMap.facts_insert h ?_
  ext a
  cases a with
  | none => simp [allows]
  | some t => simp [allows]

theorem hasKeys_add {ks : List N} {n : N} {after : FollowSet T} (h : follow.sets.HasKeys ks) :
    (follow.add n after).sets.HasKeys ks := by
  rw [add]
  split
  · rename_i set hs
    exact h.insert ((h n).mp (Option.isSome_of_eq_some hs))
  · exact h

@[simp] theorem spread_nil {known : Set (Lookahead T)} :
    spread first ([] : List (Symbol T N)) known = ∅ := by
  simp [spread, Symbol.restsAfter]

@[simp] theorem spread_terminal {known : Set (Lookahead T)} {t : T} {rest : List (Symbol T N)} :
    spread first (.terminal t :: rest) known = spread first rest known := by
  simp [spread, Symbol.restsAfter]

theorem spread_nonterminal {known : Set (Lookahead T)} {n : N} {rest : List (Symbol T N)} :
    spread first (.nonterminal n :: rest) known =
      spread first rest known ∪ {f | f.1 = n ∧ f.2 ∈ first.shown rest known} := by
  ext ⟨m, a⟩
  by_cases hm : n = m
  · subst hm
    simp [spread, Symbol.restsAfter, or_comm]
  · simp [spread, Symbol.restsAfter, hm, Ne.symm hm]

/-! ## What a production adds -/

section

variable {ks : List N} {set : FollowSet T} {symbols : List (Symbol T N)}

theorem hasKeys_foldr (h : follow.sets.HasKeys ks) :
    (symbols.foldr (goOver first) (follow, set)).1.sets.HasKeys ks := by
  induction symbols with
  | nil => exact h
  | cons s rest ih =>
      cases s with
      | terminal t => exact ih
      | nonterminal n => exact hasKeys_add ih

/-- What is carried to the left end of a string is what shows from there on. -/
theorem allows_foldr :
    allows (symbols.foldr (goOver first) (follow, set)).2 = first.shown symbols (allows set) := by
  induction symbols with
  | nil => rw [FirstSets.shown_nil, List.foldr_nil]
  | cons s rest ih =>
      rw [List.foldr_cons, ← List.singleton_append, FirstSets.shown_append, ← ih]
      exact allows_before

/-- A string adds what spreads over it, whatever it has added on its way. -/
theorem facts_foldr (h : follow.sets.HasKeys ks)
    (listed : ∀ n, Symbol.nonterminal n ∈ symbols → n ∈ ks) :
    (symbols.foldr (goOver first) (follow, set)).1.facts =
      follow.facts ∪ spread first symbols (allows set) := by
  induction symbols with
  | nil => rw [spread_nil, Set.union_empty, List.foldr_nil]
  | cons s rest ih =>
      have ih := ih fun n hn => listed n (List.mem_cons_of_mem _ hn)
      cases s with
      | terminal t =>
          rw [spread_terminal]
          exact ih
      | nonterminal n =>
          have keys : (rest.foldr (goOver first) (follow, set)).1.sets.HasKeys ks :=
            hasKeys_foldr h
          have carried : allows (rest.foldr (goOver first) (follow, set)).2 =
            first.shown rest (allows set) := allows_foldr
          obtain ⟨own, hs⟩ := keys.exists_get? (listed n List.mem_cons_self)
          rw [spread_nonterminal, ← Set.union_assoc, ← ih, ← carried]
          exact facts_add hs

end

/-- What the nonterminals of a right-hand side get from what follows the left-hand side. -/
def additions (first : FirstSets T N) (p : Production T N V) (follow : FollowSets T N) :
    Set (N × Lookahead T) :=
  spread first p.rhs (follow.after p.lhs)

theorem facts_grow {p : Production T N V} (h : follow.sets.HasKeys g.nonterminals)
    (hp : p ∈ g.productions) :
    (grow first follow p).facts = follow.facts ∪ additions first p follow := by
  obtain ⟨set, hs⟩ := h.exists_get? (Grammar.lhs_mem_nonterminals hp)
  have listed (n : N) (hn : Symbol.nonterminal n ∈ p.rhs) : n ∈ g.nonterminals :=
    Grammar.mem_nonterminals_of_mem_rhs hp hn
  have hs : follow.get? p.lhs = some set := hs
  rw [grow, hs, additions, ← allows_eq hs]
  exact facts_foldr h listed

/-! ## Where passes rest -/

theorem hasKeys_of (g : Grammar T N V) (start : N) : (of g start).sets.HasKeys g.nonterminals :=
  SortedMap.hasKeys_ofList_map _ _

theorem hasKeys_blank (g : Grammar T N V) (start : N) :
    (blank g start).sets.HasKeys g.nonterminals :=
  SortedMap.hasKeys_ofList_map _ _

theorem mem_facts_blank {f : N × Lookahead T} :
    f ∈ (blank g start).facts ↔ f = (start, none) ∧ start ∈ g.nonterminals := by
  have value (n : N) : (blank g start).sets.get? n =
      if n ∈ g.nonterminals then some ⟨.empty, decide (n = start)⟩ else none :=
    SortedMap.get?_ofList_map _
  have allowed {n : N} {a : Lookahead T} :
      a ∈ allows ⟨.empty, decide (n = start)⟩ ↔ a = none ∧ n = start := by
    cases a <;> simp [allows]
  obtain ⟨n, a⟩ := f
  rw [Prod.mk.injEq]
  constructor
  · rintro ⟨set, hs, ha⟩
    rw [value] at hs
    split at hs
    · rename_i listed
      cases hs
      obtain ⟨rfl, rfl⟩ := allowed.mp ha
      exact ⟨⟨rfl, rfl⟩, listed⟩
    · cases hs
  · rintro ⟨⟨rfl, rfl⟩, listed⟩
    exact ⟨_, (value n).trans (if_pos listed), allowed.mpr ⟨rfl, rfl⟩⟩

theorem accumulates (g : Grammar T N V) (first : FirstSets T N) :
    Accumulates (grow first) g.productions (fun follow => follow.sets.HasKeys g.nonterminals)
      facts (additions first) where
  wellFormed {follow p} h _ := by
    rw [grow]
    split
    · exact hasKeys_foldr h
    · exact h
  facts_apply h hp := facts_grow h hp
  mono {follow follow' p} h := by
    have known : follow.after p.lhs ⊆ follow'.after p.lhs :=
      fun a ha => mem_facts_iff.mp (h (mem_facts_iff (f := (p.lhs, a)).mpr ha))
    rintro f ⟨rest, hr, hf⟩
    exact ⟨rest, hr, FirstSets.shown_mono known hf⟩
  ext h h' he := congrArg mk (SortedMap.eq_of_facts allows_injective h h' he)

/-- Sets that productions add nothing to are closed. -/
theorem closed_iff : follow.Closed g start ↔ (blank g start).facts ⊆ follow.facts ∧
    ∀ p ∈ g.productions, additions (.of g) p follow ⊆ follow.facts := by
  constructor
  · intro closed
    refine ⟨fun f hf => ?_, fun p hp f ⟨rest, hr, hf⟩ => ?_⟩
    · obtain ⟨rfl, listed⟩ := mem_facts_blank.mp hf
      exact mem_facts_iff.mpr (closed.ends listed)
    · obtain ⟨before, he⟩ := Symbol.mem_restsAfter.mp hr
      exact mem_facts_iff.mpr (closed.spreads hp he hf)
  · rintro ⟨holds, satisfied⟩
    refine ⟨fun {p before rest n} hp he a ha => ?_, fun listed => ?_⟩
    · have spreads : (n, a) ∈ additions (.of g) p follow :=
        ⟨rest, Symbol.mem_restsAfter.mpr ⟨before, he⟩, ha⟩
      exact mem_facts_iff.mp (satisfied p hp spreads)
    · exact mem_facts_iff.mp (holds (mem_facts_blank.mpr ⟨rfl, listed⟩))

/-- Passes over the productions come to rest at the FOLLOW sets. -/
theorem exists_passes (g : Grammar T N V) (start : N) :
    (∃ passes, (pass (grow (.of g)) g.productions)^[passes] (blank g start) = of g start) ∧
      pass (grow (.of g)) g.productions (of g start) = of g start := by
  have closed : (of g start).Closed g start := closed_of
  obtain ⟨holds, satisfied⟩ := closed_iff.mp closed
  refine (accumulates g (.of g)).exists_passes (hasKeys_blank g start) (hasKeys_of g start) holds
    (SortedMap.finite_facts finite_allows _) satisfied ?_
  intro follow _ holds satisfied f hf
  have follows := mem_lookaheads_iff_canFollow.mp (mem_facts_iff.mp hf)
  exact mem_facts_iff.mpr ((closed_iff.mpr ⟨holds, satisfied⟩).mem_of_canFollow follows)

/-! ## Exactness -/

/-- For every grammar and every start name: passes over the productions come to rest, and they
do so at the FOLLOW sets.  There is one for each nonterminal.  It holds the terminals that can
stand right after the nonterminal in what some nonterminal derives, and the end of the input
is in it if the start symbol is listed and derives a string that ends in the nonterminal.  The
lookaheads of a nonterminal are these, each once. -/
theorem follow_exact (g : Grammar T N V) (start : N) :
    ((∃ passes, (pass (grow (.of g)) g.productions)^[passes] (blank g start) = of g start) ∧
      pass (grow (.of g)) g.productions (of g start) = of g start) ∧
    (∀ n, n ∈ g.nonterminals ↔ ∃ set, (of g start).get? n = some set ∧
      (∀ t, t ∈ set.terminals ↔ g.CanFollow start n (some t)) ∧
      (set.atEnd = true ↔ g.CanFollow start n none)) ∧
    ∀ n, ((of g start).lookaheads n).Nodup ∧
      ∀ a, a ∈ (of g start).lookaheads n ↔ g.CanFollow start n a := by
  refine ⟨exists_passes g start, fun n => ?_,
    fun n => ⟨nodup_lookaheads _ n, fun a => mem_lookaheads_iff_canFollow⟩⟩
  constructor
  · intro hn
    obtain ⟨set, hs⟩ := (hasKeys_of g start).exists_get? hn
    have holds (a : Lookahead T) : a ∈ allows set ↔ g.CanFollow start n a := by
      rw [allows_eq hs]
      exact mem_lookaheads_iff_canFollow
    refine ⟨set, hs, fun t => ?_, ?_⟩
    · rw [← holds, allows, some_mem_lookaheadSet]
    · rw [← holds, allows, none_mem_lookaheadSet]
  · rintro ⟨set, hs, _⟩
    exact (hasKeys_of g start n).mp (Option.isSome_of_eq_some hs)

end FollowSets

end BottomUp
