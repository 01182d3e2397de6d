import BottomUp.First

/-!
# FIRST sets are closed

A sequence *vanishes* if every symbol of it is nullable, and a terminal *begins* it if it
is in the FIRST set of a symbol before which all others vanish.  `mem_ofSequence` reads
`ofSequence` off these two.

The rounds that find the nullable nonterminals end with nothing new, since each of them
adds a nonterminal.  Hence a left-hand side whose right-hand side vanishes is nullable
(`nullable_of_vanishes`).  Likewise what begins a right-hand side begins its left-hand
side (`mem_terminals_of_begins`): it stands in an opening that openings reach.  Only
terminals of the grammar begin anything that occurs in it (`mem_terminals_of_mem_ofSymbol`).
-/

namespace BottomUp

variable {T N V : Type} [Ordered N]

/-! ## Sequences -/

namespace FirstSets

variable [Ordered T]

/-- Every symbol of the sequence is nullable. -/
def Vanishes (first : FirstSets T N) (symbols : List (Symbol T N)) : Prop :=
  ∀ s ∈ symbols, (first.ofSymbol s).nullable = true

/-- The terminal can begin the sequence. -/
def Begins (first : FirstSets T N) (t : T) : List (Symbol T N) → Prop
  | [] => False
  | s :: rest =>
      t ∈ (first.ofSymbol s).terminals ∨ (first.ofSymbol s).nullable = true ∧ first.Begins t rest

variable {first : FirstSets T N}

@[simp] theorem vanishes_nil : first.Vanishes [] := fun _ h => absurd h List.not_mem_nil

@[simp] theorem vanishes_cons {s : Symbol T N} {rest : List (Symbol T N)} :
    first.Vanishes (s :: rest) ↔ (first.ofSymbol s).nullable = true ∧ first.Vanishes rest :=
  List.forall_mem_cons

theorem mem_ofSequence {b a : Lookahead T} : ∀ {symbols : List (Symbol T N)},
    b ∈ first.ofSequence symbols a ↔
      (∃ t, b = some t ∧ first.Begins t symbols) ∨ b = a ∧ first.Vanishes symbols
  | [] => by simp [ofSequence, Begins]
  | s :: rest => by
      have own : b ∈ SortedSet.ofList ((first.ofSymbol s).terminals.toList.map some) ↔
          ∃ t, b = some t ∧ t ∈ (first.ofSymbol s).terminals := by
        simp only [SortedSet.mem_ofList, List.mem_map, SortedSet.mem_toList]
        exact exists_congr fun t => and_comm.trans (and_congr_left fun _ => eq_comm)
      rw [ofSequence]
      cases hn : (first.ofSymbol s).nullable with
      | false =>
          rw [if_neg Bool.false_ne_true, own]
          simp [Begins, hn]
      | true =>
          rw [if_pos rfl, SortedSet.mem_union, own, mem_ofSequence]
          simp only [Begins, hn, true_and, vanishes_cons]
          constructor
          · rintro (⟨t, he, h⟩ | ⟨t, he, h⟩ | h)
            · exact .inl ⟨t, he, .inl h⟩
            · exact .inl ⟨t, he, .inr h⟩
            · exact .inr h
          · rintro (⟨t, he, h | h⟩ | h)
            · exact .inl ⟨t, he, h⟩
            · exact .inr (.inl ⟨t, he, h⟩)
            · exact .inr (.inr h)

@[simp] theorem some_mem_ofSequence_none {t : T} {symbols : List (Symbol T N)} :
    some t ∈ first.ofSequence symbols none ↔ first.Begins t symbols := by
  simp [mem_ofSequence]

@[simp] theorem none_mem_ofSequence_none {symbols : List (Symbol T N)} :
    none ∈ first.ofSequence symbols none ↔ first.Vanishes symbols := by
  simp [mem_ofSequence]

end FirstSets

/-! ## Nullable nonterminals -/

namespace Grammar

variable {g : Grammar T N V}

theorem mem_newlyNullable {known : SortedSet N} {n : N} :
    n ∈ g.newlyNullable known ↔
      n ∉ known ∧ ∃ p ∈ g.productions, p.lhs = n ∧ ∀ s ∈ p.rhs, s.isOneOf known = true := by
  simp only [newlyNullable, List.mem_map, List.mem_filter, Bool.and_eq_true, decide_eq_true_eq,
    List.all_eq_true]
  constructor
  · rintro ⟨p, ⟨hp, hn, hs⟩, rfl⟩
    exact ⟨hn, p, hp, rfl, hs⟩
  · rintro ⟨hn, p, hp, rfl, hs⟩
    exact ⟨p, ⟨hp, hn, hs⟩, rfl⟩

theorem newlyNullable_subset {known : SortedSet N} {n : N} (h : n ∈ g.newlyNullable known) :
    n ∈ g.nonterminals := by
  obtain ⟨_, p, hp, rfl, _⟩ := mem_newlyNullable.mp h
  exact lhs_mem_nonterminals hp

theorem nullableFrom_subset {n : N} : ∀ {rounds : Nat} {known : SortedSet N},
    (∀ m ∈ known, m ∈ g.nonterminals) → n ∈ g.nullableFrom rounds known → n ∈ g.nonterminals
  | 0, _, hk, h => hk n h
  | rounds + 1, known, hk, h => by
      rw [nullableFrom] at h
      split at h
      · exact hk n h
      · refine nullableFrom_subset (fun m hm => ?_) h
        cases SortedSet.mem_insertAll.mp hm with
        | inl hm => exact newlyNullable_subset hm
        | inr hm => exact hk m hm

/-- With a round for each nonterminal that is not known yet, the rounds end with nothing
new. -/
theorem newlyNullable_nullableFrom : ∀ {rounds : Nat} {known : SortedSet N},
    (∀ m ∈ known, m ∈ g.nonterminals) → g.nonterminals.length ≤ rounds + known.size →
      g.newlyNullable (g.nullableFrom rounds known) = []
  | 0, known, hk, hlen => by
      refine List.eq_nil_iff_forall_not_mem.mpr fun n hn => ?_
      have := size_lt_of_not_mem hk (newlyNullable_subset hn) (mem_newlyNullable.mp hn).1
      omega
  | rounds + 1, known, hk, hlen => by
      rw [nullableFrom]
      split
      · rename_i hempty
        exact List.isEmpty_iff.mp hempty
      · rename_i hempty
        obtain ⟨n, hn⟩ := List.exists_mem_of_ne_nil _ fun h => hempty (List.isEmpty_iff.mpr h)
        have := size_lt_size_insertAll hn (mem_newlyNullable.mp hn).1
        refine newlyNullable_nullableFrom (fun m hm => ?_) (by omega)
        cases SortedSet.mem_insertAll.mp hm with
        | inl hm => exact newlyNullable_subset hm
        | inr hm => exact hk m hm

theorem lhs_mem_nullables {p : Production T N V} (hp : p ∈ g.productions)
    (hs : ∀ s ∈ p.rhs, s.isOneOf g.nullables = true) : p.lhs ∈ g.nullables := by
  have closed : g.newlyNullable g.nullables = [] :=
    newlyNullable_nullableFrom (fun _ h => absurd h (SortedSet.not_mem_empty _)) (by omega)
  refine Decidable.byContradiction fun hn => ?_
  have : p.lhs ∈ g.newlyNullable g.nullables := mem_newlyNullable.mpr ⟨hn, p, hp, rfl, hs⟩
  rw [closed] at this
  exact List.not_mem_nil this

end Grammar

/-! ## The sets of a grammar -/

namespace FirstSets

variable [Ordered T] {g : Grammar T N V}

theorem get?_of (n : N) :
    (of g).get? n =
      if n ∈ g.nonterminals then
        some ⟨g.firstTerminals (g.openingSymbols g.nullables) n, decide (n ∈ g.nullables)⟩
      else none := by
  simp only [of, get?, Tabulated.get_eq]
  exact SortedMap.get?_ofList_map g.nonterminals

theorem nullable_ofSymbol (s : Symbol T N) :
    ((of g).ofSymbol s).nullable = s.isOneOf g.nullables := by
  cases s with
  | terminal t => rfl
  | nonterminal n =>
      simp only [ofSymbol, get?_of, Symbol.isOneOf]
      split
      · rfl
      · rename_i hn
        have : n ∉ g.nullables := fun h =>
          hn (Grammar.nullableFrom_subset (fun _ h => absurd h (SortedSet.not_mem_empty _)) h)
        simp [this]

/-- A left-hand side vanishes with its right-hand side. -/
theorem nullable_of_vanishes {p : Production T N V} (hp : p ∈ g.productions)
    (h : (of g).Vanishes p.rhs) : ((of g).ofSymbol (.nonterminal p.lhs)).nullable = true := by
  rw [nullable_ofSymbol, Symbol.isOneOf, decide_eq_true_eq]
  refine Grammar.lhs_mem_nullables hp fun s hs => ?_
  rw [← nullable_ofSymbol]
  exact h s hs

end FirstSets

/-! ## Openings -/

namespace Grammar

variable {g : Grammar T N V}

theorem opening_subset {nullable : SortedSet N} {s : Symbol T N} :
    ∀ {symbols : List (Symbol T N)}, s ∈ opening nullable symbols → s ∈ symbols
  | [], h => h
  | s' :: rest, h => by
      rw [opening] at h
      cases List.mem_cons.mp h with
      | inl he => exact he ▸ List.mem_cons_self
      | inr h =>
          split at h
          · exact List.mem_cons_of_mem _ (opening_subset h)
          · exact absurd h List.not_mem_nil

theorem mem_openingSymbols {nullable : SortedSet N} {n : N} {s : Symbol T N} :
    s ∈ g.openingSymbols nullable n ↔
      ∃ p ∈ g.productions, p.lhs = n ∧ s ∈ opening nullable p.rhs := by
  simp only [openingSymbols, List.mem_flatMap, mem_alternatives]
  constructor
  · rintro ⟨p, ⟨production, hp, hn⟩, hs⟩
    rw [rhs_of_getElem? hp] at hs
    exact ⟨production, List.mem_of_getElem? hp, hn, hs⟩
  · rintro ⟨production, hp, hn, hs⟩
    obtain ⟨p, hp⟩ := List.getElem?_of_mem hp
    exact ⟨p, ⟨production, hp, hn⟩, by rwa [rhs_of_getElem? hp]⟩

/-- The nonterminals in the openings of a nonterminal, which show at the left of it. -/
def corners (g : Grammar T N V) (n : N) : List N :=
  (g.openingSymbols g.nullables n).filterMap Symbol.nonterminal?

theorem mem_corners {n m : N} :
    m ∈ g.corners n ↔ Symbol.nonterminal m ∈ g.openingSymbols g.nullables n := by
  simp [corners]

theorem mem_firstTerminals [Ordered T] {n : N} {t : T} (hn : n ∈ g.nonterminals) :
    t ∈ g.firstTerminals (g.openingSymbols g.nullables) n ↔
      ∃ m, Generated g.corners [n] m ∧ Symbol.terminal t ∈ g.openingSymbols g.nullables m := by
  have listed : ∀ m ∈ g.nonterminals, ∀ k ∈ g.corners m, k ∈ g.nonterminals := by
    intro m _ k hk
    obtain ⟨p, hp, _, hs⟩ := mem_openingSymbols.mp (mem_corners.mp hk)
    exact mem_nonterminals_of_mem_rhs hp (opening_subset hs)
  have reached (m : N) : m ∈ g.leftCorners (g.openingSymbols g.nullables) n ↔
      Generated g.corners [n] m :=
    mem_reach_iff (fun _ h => List.mem_singleton.mp h ▸ hn) listed (Nat.le_refl _)
  simp [firstTerminals, reached]

end Grammar

namespace FirstSets

variable [Ordered T] {g : Grammar T N V}

theorem mem_terminals_ofSymbol {n : N} {t : T} :
    t ∈ ((of g).ofSymbol (.nonterminal n)).terminals ↔
      n ∈ g.nonterminals ∧
        ∃ m, Generated g.corners [n] m ∧ Symbol.terminal t ∈ g.openingSymbols g.nullables m := by
  simp only [ofSymbol, get?_of]
  split
  · rename_i hn
    rw [Option.getD_some, Grammar.mem_firstTerminals hn]
    simp [hn]
  · rename_i hn
    simp [hn]

/-- What begins a sequence begins a symbol of its opening. -/
theorem exists_mem_opening_of_begins {t : T} : ∀ {symbols : List (Symbol T N)},
    (of g).Begins t symbols →
      ∃ s ∈ Grammar.opening g.nullables symbols, t ∈ ((of g).ofSymbol s).terminals
  | [], h => h.elim
  | s :: rest, h => by
      rw [Grammar.opening]
      rcases h with h | ⟨hn, h⟩
      · exact ⟨s, List.mem_cons_self, h⟩
      · rw [nullable_ofSymbol] at hn
        rw [if_pos hn]
        obtain ⟨s', hs', ht⟩ := exists_mem_opening_of_begins h
        exact ⟨s', List.mem_cons_of_mem _ hs', ht⟩

/-- What begins a right-hand side begins its left-hand side. -/
theorem mem_terminals_of_begins {p : Production T N V} {t : T} (hp : p ∈ g.productions)
    (h : (of g).Begins t p.rhs) : t ∈ ((of g).ofSymbol (.nonterminal p.lhs)).terminals := by
  obtain ⟨s, hs, ht⟩ := exists_mem_opening_of_begins h
  have hs : s ∈ g.openingSymbols g.nullables p.lhs :=
    Grammar.mem_openingSymbols.mpr ⟨p, hp, rfl, hs⟩
  refine mem_terminals_ofSymbol.mpr ⟨Grammar.lhs_mem_nonterminals hp, ?_⟩
  have seed : Generated g.corners [p.lhs] p.lhs := .seed List.mem_cons_self
  cases s with
  | terminal t' =>
      have : t = t' := by simpa [ofSymbol] using ht
      exact ⟨p.lhs, seed, this ▸ hs⟩
  | nonterminal n =>
      obtain ⟨_, m, hm, ht⟩ := mem_terminals_ofSymbol.mp ht
      exact ⟨m, (seed.step (Grammar.mem_corners.mpr hs)).trans hm, ht⟩

/-- Only terminals of the grammar begin a symbol of a right-hand side. -/
theorem mem_terminals_of_mem_ofSymbol {p : Production T N V} {s : Symbol T N} {t : T}
    (hp : p ∈ g.productions) (hs : s ∈ p.rhs) (h : t ∈ ((of g).ofSymbol s).terminals) :
    t ∈ g.terminals := by
  cases s with
  | terminal t' =>
      have : t = t' := by simpa [ofSymbol] using h
      exact Grammar.mem_terminals.mpr ⟨p, hp, this ▸ hs⟩
  | nonterminal n =>
      obtain ⟨_, m, _, ht⟩ := mem_terminals_ofSymbol.mp h
      obtain ⟨q, hq, _, ht⟩ := Grammar.mem_openingSymbols.mp ht
      exact Grammar.mem_terminals.mpr ⟨q, hq, Grammar.opening_subset ht⟩

theorem mem_terminals_of_begins_suffix {p : Production T N V} {t : T} (hp : p ∈ g.productions) :
    ∀ {rest : List (Symbol T N)}, rest <:+ p.rhs → (of g).Begins t rest → t ∈ g.terminals
  | [], _, h => h.elim
  | s :: rest, hr, h => by
      rcases h with h | ⟨_, h⟩
      · exact mem_terminals_of_mem_ofSymbol hp (hr.mem List.mem_cons_self) h
      · exact mem_terminals_of_begins_suffix hp ((List.suffix_cons s rest).trans hr) h

end FirstSets

end BottomUp
