import BottomUp.Proofs.Leading
import BottomUp.Proofs.Passes

/-!
# FIRST sets by passes

FIRST sets can be found by passes over the productions.  All sets are empty at first, and no
nonterminal is nullable.  A production adds to the set of its left-hand side what shows at the
left of its right-hand side by the sets as they are.  It stops at the first symbol that does
not vanish.  What its left-hand side is known to begin with need not be found again where that
stands on the right-hand side itself.

Such passes come to rest at the FIRST sets, whatever the order of the productions.  These are
exact: a terminal is in the set of a nonterminal if and only if the nonterminal derives a
string that begins with it, and a nonterminal is nullable if and only if it derives the empty
string (`first_exact`).
-/

namespace BottomUp

variable {T N V : Type} [Ordered T] [Ordered N]

namespace FirstSets

/-! ## Passes -/

/-- The empty sets of the nonterminals of a grammar. -/
def blank (g : Grammar T N V) : FirstSets T N :=
  ⟨.ofList (g.nonterminals.map fun n => (n, ⟨.empty, false⟩))⟩

/-- What shows at the left of a right-hand side, apart from what its owner is known to begin
with. -/
def found (first : FirstSets T N) (owner : N) : List (Symbol T N) → FirstSet T
  | [] => ⟨.empty, true⟩
  | .terminal t :: _ => ⟨.ofList [t], false⟩
  | .nonterminal n :: rest =>
      let set := first.ofSymbol (.nonterminal n)
      let terminals := if n = owner then .empty else set.terminals
      if set.nullable then
        let more := first.found owner rest
        ⟨terminals.union more.terminals, more.nullable⟩
      else ⟨terminals, false⟩

/-- The set of a left-hand side with what its right-hand side shows. -/
def grow (first : FirstSets T N) (p : Production T N V) : FirstSets T N :=
  match first.get? p.lhs with
  | some set =>
      let more := first.found p.lhs p.rhs
      ⟨first.sets.insert p.lhs
        ⟨set.terminals.union more.terminals, set.nullable || more.nullable⟩⟩
  | none => first

/-! ## What a production adds -/

variable {first first' : FirstSets T N} {g : Grammar T N V}

@[simp] theorem nullable_found {owner : N} : ∀ {symbols : List (Symbol T N)},
    (first.found owner symbols).nullable = true ↔ first.Vanishes symbols
  | [] => by simp [found]
  | .terminal t :: rest => by simp [found, ofSymbol]
  | .nonterminal n :: rest => by
      rw [found, vanishes_cons]
      by_cases hn : (first.ofSymbol (.nonterminal n)).nullable = true
      · have ih : (first.found owner rest).nullable = true ↔ first.Vanishes rest := nullable_found
        simp [hn, ih]
      · simp [hn]

/-- Nothing is missed that the owner is not known to begin with. -/
theorem mem_terminals_found {owner : N} {t : T} : ∀ {symbols : List (Symbol T N)},
    t ∈ (first.ofSymbol (.nonterminal owner)).terminals ∨
        t ∈ (first.found owner symbols).terminals ↔
      t ∈ (first.ofSymbol (.nonterminal owner)).terminals ∨ first.Begins t symbols
  | [] => by simp [found, Begins]
  | .terminal t' :: rest => by simp [found, ofSymbol, Begins]
  | .nonterminal n :: rest => by
      have ih : t ∈ (first.ofSymbol (.nonterminal owner)).terminals ∨
            t ∈ (first.found owner rest).terminals ↔
          t ∈ (first.ofSymbol (.nonterminal owner)).terminals ∨ first.Begins t rest :=
        mem_terminals_found
      rw [found]
      by_cases hn : (first.ofSymbol (.nonterminal n)).nullable = true
      · by_cases ho : n = owner
        · subst ho
          simp [hn, Begins, ih]
        · simp only [hn, ho, Begins, if_true, if_false, SortedSet.mem_union, true_and]
          rw [or_left_comm, ih, or_left_comm]
      · by_cases ho : n = owner
        · subst ho
          simp [hn, Begins]
        · simp [hn, ho, Begins]

/-! ## Facts -/

/-- What a set lets show: its terminals, and the end of the input if it is of a nullable
nonterminal. -/
def shows (set : FirstSet T) : Set (Lookahead T) := lookaheadSet set.terminals set.nullable

theorem shows_injective : Function.Injective (shows (T := T)) := by
  intro set set' h
  obtain ⟨terminals, nullable⟩ := lookaheadSet_inj h
  exact congrArg₂ FirstSet.mk terminals nullable

theorem finite_shows (set : FirstSet T) : (shows set).Finite := finite_lookaheadSet _ _

/-- What shows at the left of each nonterminal. -/
def facts (first : FirstSets T N) : Set (N × Lookahead T) := first.sets.facts shows

/-- What shows at the left of a right-hand side, as facts about the left-hand side. -/
def additions (p : Production T N V) (first : FirstSets T N) : Set (N × Lookahead T) :=
  {f | f.1 = p.lhs ∧ f.2 ∈ first.ofSequence p.rhs none}

@[simp] theorem some_mem_facts {n : N} {t : T} :
    (n, some t) ∈ first.facts ↔ t ∈ (first.ofSymbol (.nonterminal n)).terminals := by
  cases h : first.sets.get? n with
  | none => simp [facts, SortedMap.facts, ofSymbol, get?, h]
  | some set => simp [facts, SortedMap.facts, ofSymbol, get?, h, shows]

@[simp] theorem none_mem_facts {n : N} :
    (n, none) ∈ first.facts ↔ (first.ofSymbol (.nonterminal n)).nullable = true := by
  cases h : first.sets.get? n with
  | none => simp [facts, SortedMap.facts, ofSymbol, get?, h]
  | some set => simp [facts, SortedMap.facts, ofSymbol, get?, h, shows]

section

variable (h : first.facts ⊆ first'.facts)
include h

theorem nullable_of_facts {s : Symbol T N} (hn : (first.ofSymbol s).nullable = true) :
    (first'.ofSymbol s).nullable = true := by
  cases s with
  | terminal t => exact hn
  | nonterminal n => exact none_mem_facts.mp (h (none_mem_facts.mpr hn))

theorem mem_terminals_of_facts {s : Symbol T N} {t : T} (ht : t ∈ (first.ofSymbol s).terminals) :
    t ∈ (first'.ofSymbol s).terminals := by
  cases s with
  | terminal t' => exact ht
  | nonterminal n => exact some_mem_facts.mp (h (some_mem_facts.mpr ht))

theorem begins_of_facts {t : T} : ∀ {symbols : List (Symbol T N)},
    first.Begins t symbols → first'.Begins t symbols
  | _ :: _, .inl ht => .inl (mem_terminals_of_facts h ht)
  | _ :: _, .inr ⟨hn, hb⟩ => .inr ⟨nullable_of_facts h hn, begins_of_facts hb⟩

/-- The more shows at the left of nonterminals, the more shows at the left of a sequence. -/
theorem mem_ofSequence_of_facts {symbols : List (Symbol T N)} {a : Lookahead T}
    (ha : a ∈ first.ofSequence symbols none) : a ∈ first'.ofSequence symbols none := by
  cases a with
  | none =>
      rw [none_mem_ofSequence_none] at ha ⊢
      exact fun s hs => nullable_of_facts h (ha s hs)
  | some t =>
      rw [some_mem_ofSequence_none] at ha ⊢
      exact begins_of_facts h ha

end

theorem facts_grow {p : Production T N V} {set : FirstSet T} (h : first.get? p.lhs = some set) :
    (first.grow p).facts = first.facts ∪ additions p first := by
  have own : first.ofSymbol (.nonterminal p.lhs) = set := by rw [ofSymbol, h, Option.getD_some]
  have found (t : T) : t ∈ set.terminals ∨ t ∈ (first.found p.lhs p.rhs).terminals ↔
      t ∈ set.terminals ∨ first.Begins t p.rhs := own ▸ mem_terminals_found
  have grown : shows ⟨set.terminals.union (first.found p.lhs p.rhs).terminals,
      set.nullable || (first.found p.lhs p.rhs).nullable⟩ =
      shows set ∪ {a | a ∈ first.ofSequence p.rhs none} := by
    ext a
    cases a with
    | none => simp [shows]
    | some t => simp [shows, found]
  rw [grow, h]
  exact SortedMap.facts_insert h grown

/-! ## Where passes rest -/

theorem hasKeys_of (g : Grammar T N V) : (of g).sets.HasKeys g.nonterminals :=
  SortedMap.hasKeys_ofList_map _ _

theorem hasKeys_blank (g : Grammar T N V) : (blank g).sets.HasKeys g.nonterminals :=
  SortedMap.hasKeys_ofList_map _ _

theorem facts_blank (g : Grammar T N V) : (blank g).facts = ∅ := by
  refine Set.eq_empty_of_forall_notMem fun (n, a) ⟨set, hs, ha⟩ => ?_
  obtain ⟨_, _, he⟩ := List.mem_map.mp (SortedMap.mem_of_get?_ofList hs)
  cases he
  cases a with
  | none => simp [shows] at ha
  | some t => simp [shows] at ha

theorem accumulates (g : Grammar T N V) :
    Accumulates grow g.productions (fun first => first.sets.HasKeys g.nonterminals)
      (facts (T := T)) additions where
  wellFormed {first p} h hp := by
    have listed := Grammar.lhs_mem_nonterminals hp
    rw [grow]
    split
    · exact h.insert listed
    · exact h
  facts_apply h hp := by
    obtain ⟨set, hs⟩ := h.exists_get? (Grammar.lhs_mem_nonterminals hp)
    exact facts_grow hs
  mono := by
    rintro first first' p h ⟨n, a⟩ ⟨hn, ha⟩
    exact ⟨hn, mem_ofSequence_of_facts h ha⟩
  ext h h' he := congrArg mk (SortedMap.eq_of_facts shows_injective h h' he)

/-- Passes over the productions come to rest at the FIRST sets. -/
theorem exists_passes (g : Grammar T N V) :
    (∃ passes, (pass grow g.productions)^[passes] (blank g) = of g) ∧
      pass grow g.productions (of g) = of g := by
  refine (accumulates g).exists_passes (hasKeys_blank g) (hasKeys_of g) ?_
    (SortedMap.finite_facts finite_shows _) ?_ ?_
  · rw [facts_blank]
    exact Set.empty_subset _
  · rintro p hp ⟨n, a⟩ ⟨rfl, ha⟩
    cases a with
    | none => exact none_mem_facts.mpr (closed_of.vanishes hp (none_mem_ofSequence_none.mp ha))
    | some t => exact some_mem_facts.mpr (closed_of.begins hp (some_mem_ofSequence_none.mp ha))
  · intro first _ _ satisfied
    have closed : first.Closed g :=
      { vanishes := fun hp hv =>
          none_mem_facts.mp (satisfied _ hp ⟨rfl, none_mem_ofSequence_none.mpr hv⟩)
        begins := fun hp hb =>
          some_mem_facts.mp (satisfied _ hp ⟨rfl, some_mem_ofSequence_none.mpr hb⟩) }
    rintro ⟨n, a⟩ ha
    cases a with
    | none =>
        have single : (of g).Vanishes [.nonterminal n] := by simpa using ha
        have := closed.vanishes_of_derives (vanishes_iff.mp single)
        simpa using this
    | some t =>
        have single : (of g).Begins t [.nonterminal n] := .inl (some_mem_facts.mp ha)
        obtain ⟨rest, begins⟩ := begins_iff.mp single
        have := closed.begins_of_derives begins
        simpa [Begins] using this

/-! ## Exactness -/

/-- For every grammar: passes over the productions come to rest, and they do so at the FIRST
sets.  There is one for each nonterminal.  It holds the terminals that begin what the
nonterminal derives, and the nonterminal is nullable if it derives the empty string.  What can
show at the left of a sequence that a lookahead follows are the terminals that begin what the
sequence derives, and the lookahead if that can be the empty string. -/
theorem first_exact (g : Grammar T N V) :
    ((∃ passes, (pass grow g.productions)^[passes] (blank g) = of g) ∧
      pass grow g.productions (of g) = of g) ∧
    (∀ n, n ∈ g.nonterminals ↔ ∃ set, (of g).get? n = some set ∧
      (∀ t, t ∈ set.terminals ↔ ∃ rest, g.Derives [.nonterminal n] (.terminal t :: rest)) ∧
      (set.nullable = true ↔ g.Derives [.nonterminal n] [])) ∧
    ∀ symbols a b, b ∈ (of g).ofSequence symbols a ↔
      (∃ t, b = some t ∧ ∃ rest, g.Derives symbols (.terminal t :: rest)) ∨
        b = a ∧ g.Derives symbols [] := by
  refine ⟨exists_passes g, fun n => ?_, fun symbols a b => ?_⟩
  · constructor
    · intro hn
      obtain ⟨set, hs⟩ := (hasKeys_of g).exists_get? hn
      have own : (of g).ofSymbol (.nonterminal n) = set := by
        rw [ofSymbol, get?, hs, Option.getD_some]
      refine ⟨set, hs, fun t => ?_, ?_⟩
      · rw [← begins_iff, ← own]
        simp [Begins]
      · rw [← vanishes_iff, ← own]
        simp
    · rintro ⟨set, hs, _⟩
      exact (hasKeys_of g n).mp (Option.isSome_of_eq_some hs)
  · rw [mem_ofSequence, vanishes_iff]
    simp only [begins_iff]

end FirstSets

end BottomUp
