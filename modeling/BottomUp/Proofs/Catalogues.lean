import BottomUp.Proofs.Validation

/-!
# Catalogues

A grammar reads what it is asked for off its productions.  A *catalogue* keeps it in step while
the grammar is written: each listed nonterminal has the numbers of its productions, an index has
the positions of the nonterminals, and each production has its number with it.  Looking up goes
through these books without a check, so a catalogue that is out of step fails.

One edit at a time keeps the catalogue one of the grammar (`Catalogue.Of`).  To mention a
nonterminal looks into the index, and one that is not there gets the next position
(`Of.place`).  A production mentions its left-hand side first, which then stays where it is
while the right-hand side is mentioned, so the number of the production goes to the right
nonterminal (`Of.exists_add`).  By induction a catalogue that is kept from the start never fails,
and what it says is what the grammar says (`catalogue_in_step`).
-/

namespace BottomUp

variable {T N V : Type}

/-! ## Edits -/

namespace Grammar

/-- One step of writing a grammar. -/
inductive Edit (T N V : Type) where
  /-- Mention a nonterminal. -/
  | mention (n : N)
  /-- Append a production. -/
  | add (p : Production T N V)
  /-- Declare a group of operators. -/
  | declare (assoc : Assoc) (members : List T)

/-- The nonterminals that an edit mentions, from left to right. -/
def Edit.mentions : Edit T N V → List N
  | .mention n => [n]
  | .add p => p.mentions
  | .declare _ _ => []

/-- The edits of a clause: a rule mentions its nonterminal and appends each alternative. -/
def Clause.edits : Clause T N V → List (Edit T N V)
  | .mention n => [.mention n]
  | .rule lhs alternatives =>
      .mention lhs :: alternatives.map fun (rhs, tag, act) => .add ⟨lhs, rhs, tag, act⟩
  | .declare assoc members => [.declare assoc members]

variable [DecidableEq N]

/-- The grammar after one more edit. -/
def edit (g : Grammar T N V) : Edit T N V → Grammar T N V
  | .mention n => g.mention n
  | .add p => g.add p
  | .declare assoc members => g.declare assoc members

/-- The grammar that edits make. -/
def ofEdits (edits : List (Edit T N V)) : Grammar T N V := edits.foldl edit empty

end Grammar

/-! ## Catalogues -/

/-- A listed nonterminal. -/
structure Listing (N : Type) where
  /-- Its name. -/
  name : N
  /-- The numbers of its productions. -/
  productions : List Nat

/-- A listed nonterminal with one more production. -/
def Listing.append (l : Listing N) (number : Nat) : Listing N :=
  { l with productions := l.productions ++ [number] }

/-- A grammar with what is looked up in it. -/
structure Catalogue (T N V : Type) [Ordered N] where
  /-- The nonterminals in the order of their first mention. -/
  listings : List (Listing N) := []
  /-- The positions of the nonterminals. -/
  index : SortedMap N Nat := ∅
  /-- The productions with their numbers. -/
  productions : List (Nat × Production T N V) := []
  /-- The declared precedences. -/
  precedence : PrecedenceTable T := {}

namespace Catalogue

variable [Ordered N]

/-- The names of the nonterminals. -/
def names (c : Catalogue T N V) : List N := c.listings.map Listing.name

/-- The position of a nonterminal.  It is listed if it is not in the index. -/
def place (c : Catalogue T N V) (n : N) : Nat × Catalogue T N V :=
  match c.index.get? n with
  | some i => (i, c)
  | none =>
      (c.listings.length,
        { c with
          listings := c.listings ++ [⟨n, []⟩]
          index := c.index.insert n c.listings.length })

/-- List some nonterminals in their order. -/
def placeAll (c : Catalogue T N V) (names : List N) : Catalogue T N V :=
  names.foldl (fun c n => (c.place n).2) c

/-- Append a production with its number, which the nonterminal at a position gets. -/
def append (c : Catalogue T N V) (number owner : Nat) (p : Production T N V) : Catalogue T N V :=
  { c with
    listings := c.listings.modify owner (·.append number)
    productions := c.productions ++ [(number, p)] }

/-- Append a production, and give its number.  Its left-hand side is listed first, and then what
its right-hand side mentions.  It is `none` if nothing is listed at the position of the left-hand
side. -/
def add? (c : Catalogue T N V) (p : Production T N V) : Option (Nat × Catalogue T N V) :=
  let number := c.productions.length
  let owner := (c.place p.lhs).1
  let all := (c.place p.lhs).2.placeAll (p.rhs.filterMap Symbol.nonterminal?)
  if owner < all.listings.length then some (number, all.append number owner p) else none

/-- The catalogue after one more edit.  It is `none` if it is out of step. -/
def edit? (c : Catalogue T N V) : Grammar.Edit T N V → Option (Catalogue T N V)
  | .mention n => some (c.place n).2
  | .add p => (c.add? p).map Prod.snd
  | .declare assoc members => some { c with precedence := c.precedence.declare assoc members }

/-- The numbers of the productions of a nonterminal, and no numbers for one that is not in the
index.  It is `none` if nothing is listed at the position of the nonterminal. -/
def alternatives? (c : Catalogue T N V) (n : N) : Option (List Nat) :=
  match c.index.get? n with
  | some i => c.listings[i]?.map Listing.productions
  | none => some []

/-- The books of a catalogue agree with each other, and they hold what was mentioned. -/
structure Consistent (c : Catalogue T N V) (mentioned : List N) : Prop where
  /-- The number of a production is its position. -/
  numbered (i number : Nat) (p : Production T N V) :
    c.productions[i]? = some (number, p) → number = i
  /-- All mentioned nonterminals are listed in the order of their first mention. -/
  listed : c.names = mentioned.eraseDups
  /-- None is listed twice. -/
  nodup : c.names.Nodup
  /-- The index has the position of each listed nonterminal and nothing else. -/
  indexed (n : N) (i : Nat) : c.index.get? n = some i ↔ c.names[i]? = some n
  /-- The alternatives of a nonterminal are the ascending numbers of its productions. -/
  ascending (n : N) : ∃ numbers, c.alternatives? n = some numbers ∧
    numbers.Pairwise (· < ·) ∧
    ∀ i, i ∈ numbers ↔ ∃ p, c.productions[i]? = some (i, p) ∧ p.lhs = n

/-- What is in a catalogue is in a later one at the same place. -/
structure Kept (c c' : Catalogue T N V) : Prop where
  productions : c.productions <+: c'.productions
  names : c.names <+: c'.names
  positions (n : N) (i : Nat) : c.index.get? n = some i → c'.index.get? n = some i

/-- The catalogue is one of the grammar. -/
structure Of (c : Catalogue T N V) (g : Grammar T N V) : Prop where
  names : c.names = g.nonterminals
  productions : c.productions = g.numbered
  precedence : c.precedence = g.precedence
  position (n : N) : c.index.get? n = g.position? n
  alternatives : ∀ l ∈ c.listings, l.productions = g.alternatives l.name

end Catalogue

/-! ## Positions and alternatives of a grammar -/

namespace Grammar

variable [Ordered N] {g : Grammar T N V} {m n : N} {i : Nat} {p : Production T N V}

theorem position?_eq_some_iff : g.position? n = some i ↔ g.nonterminals[i]? = some n := by
  rw [position?, List.findIdx?_eq_some_iff_getElem]
  constructor
  · rintro ⟨hi, same, -⟩
    rw [List.getElem?_eq_getElem hi, of_decide_eq_true same]
  · intro h
    obtain ⟨hi, rfl⟩ := List.getElem?_eq_some_iff.mp h
    refine ⟨hi, decide_eq_true rfl, fun j hj same => ?_⟩
    have twice := (List.Nodup.getElem_inj_iff g.nodup).mp (of_decide_eq_true same)
    exact Nat.ne_of_lt hj twice

theorem position?_eq_none_iff : g.position? n = none ↔ n ∉ g.nonterminals := by
  rw [Option.eq_none_iff_forall_ne_some, List.mem_iff_getElem?, not_exists]
  simp only [ne_eq, position?_eq_some_iff]

theorem mention_of_mem (h : n ∈ g.nonterminals) : g.mention n = g := dif_pos h

theorem nonterminals_mention_of_notMem (h : n ∉ g.nonterminals) :
    (g.mention n).nonterminals = g.nonterminals ++ [n] := by
  rw [mention, dif_neg h]

theorem prefix_mention (g : Grammar T N V) (n : N) :
    g.nonterminals <+: (g.mention n).nonterminals := by
  by_cases h : n ∈ g.nonterminals
  · rw [mention_of_mem h]
  · rw [nonterminals_mention_of_notMem h]
    exact List.prefix_append _ _

theorem prefix_mentionAll : ∀ (names : List N) (g : Grammar T N V),
    g.nonterminals <+: (g.mentionAll names).nonterminals
  | [], _ => List.prefix_rfl
  | n :: names, g => (prefix_mention g n).trans (prefix_mentionAll names (g.mention n))

/-- A nonterminal stays at its position. -/
theorem position?_of_prefix {g' : Grammar T N V} (h : g.nonterminals <+: g'.nonterminals)
    (hn : g.position? n = some i) : g'.position? n = some i := by
  rw [position?_eq_some_iff] at hn ⊢
  obtain ⟨rest, h⟩ := h
  rw [← h, List.getElem?_append_left (List.getElem?_eq_some_iff.mp hn).1, hn]

/-- To mention a nonterminal says nothing of the others. -/
theorem position?_mention_of_ne (h : m ≠ n) : (g.mention n).position? m = g.position? m := by
  refine Option.ext fun i => ⟨fun hi => ?_, position?_of_prefix (prefix_mention g n)⟩
  have listed := List.mem_of_getElem? (position?_eq_some_iff.mp hi)
  obtain ⟨j, hj⟩ := List.getElem?_of_mem ((mem_mention.mp listed).resolve_right h)
  have stays := position?_of_prefix (prefix_mention g n) (position?_eq_some_iff.mpr hj)
  rw [Option.some.inj (hi.symm.trans stays)]
  exact position?_eq_some_iff.mpr hj

theorem precedence_mentionAll : ∀ (names : List N) (g : Grammar T N V),
    (g.mentionAll names).precedence = g.precedence
  | [], _ => rfl
  | n :: names, g => (precedence_mentionAll names (g.mention n)).trans (precedence_mention n)

theorem numbered_mentionAll (names : List N) (g : Grammar T N V) :
    (g.mentionAll names).numbered = g.numbered := by
  rw [numbered, productions_mentionAll, numbered]

theorem alternatives_mentionAll (names : List N) (g : Grammar T N V) (n : N) :
    (g.mentionAll names).alternatives n = g.alternatives n := by
  rw [alternatives, numbered_mentionAll, alternatives]

theorem numbered_add (g : Grammar T N V) (p : Production T N V) :
    (g.add p).numbered = g.numbered ++ [(g.productions.length, p)] := by
  simp [numbered, add, List.zipIdx_append]

/-- A production is one more alternative of its left-hand side. -/
theorem alternatives_add_self (g : Grammar T N V) (p : Production T N V) :
    (g.add p).alternatives p.lhs = g.alternatives p.lhs ++ [g.productions.length] := by
  rw [alternatives, numbered_add, List.filterMap_append]
  simp [alternatives]

theorem alternatives_add_of_ne (g : Grammar T N V) (h : p.lhs ≠ n) :
    (g.add p).alternatives n = g.alternatives n := by
  rw [alternatives, numbered_add, List.filterMap_append]
  simp [alternatives, h]

omit [Ordered N] in
theorem getElem?_numbered {entry : Nat × Production T N V} :
    g.numbered[i]? = some entry ↔ entry.1 = i ∧ g.productions[i]? = some entry.2 := by
  obtain ⟨number, p⟩ := entry
  simp only [numbered, List.getElem?_map, List.getElem?_zipIdx, Option.map_map,
    Option.map_eq_some_iff, Function.comp_apply, Nat.zero_add, Prod.mk.injEq]
  constructor
  · rintro ⟨q, hq, rfl, rfl⟩
    exact ⟨rfl, hq⟩
  · rintro ⟨rfl, hp⟩
    exact ⟨p, hp, rfl, rfl⟩

/-- The alternatives of a nonterminal ascend. -/
theorem pairwise_alternatives (g : Grammar T N V) (n : N) :
    (g.alternatives n).Pairwise (· < ·) := by
  have ascending : g.numbered.Pairwise fun e e' => e.1 < e'.1 := by
    refine List.pairwise_iff_getElem.mpr fun i j hi hj before => ?_
    have first := (getElem?_numbered.mp (List.getElem?_eq_getElem hi)).1
    have second := (getElem?_numbered.mp (List.getElem?_eq_getElem hj)).1
    rwa [first, second]
  refine List.pairwise_filterMap.mpr (ascending.imp fun before i hi j hj => ?_)
  obtain ⟨_, first⟩ := Option.ite_none_right_eq_some.mp hi
  obtain ⟨_, second⟩ := Option.ite_none_right_eq_some.mp hj
  cases first
  cases second
  exact before

/-- What is not listed has no productions. -/
theorem alternatives_of_notMem (h : n ∉ g.nonterminals) : g.alternatives n = [] :=
  bare_iff.mp fun _ hp he => h (he ▸ lhs_mem_nonterminals hp)

end Grammar

/-! ## Edits keep a catalogue in step -/

namespace Catalogue

variable [Ordered N] {c : Catalogue T N V} {g : Grammar T N V} {n : N} {i : Nat}

theorem of_empty : (({} : Catalogue T N V)).Of .empty where
  names := rfl
  productions := rfl
  precedence := rfl
  position _ := SortedMap.get?_empty _
  alternatives := nofun

namespace Of

theorem length_listings (h : c.Of g) : c.listings.length = g.nonterminals.length := by
  rw [← h.names, Catalogue.names, List.length_map]

/-- To mention a nonterminal gives its position. -/
theorem place (h : c.Of g) (n : N) :
    (c.place n).2.Of (g.mention n) ∧ (g.mention n).position? n = some (c.place n).1 := by
  rw [Catalogue.place]
  cases hi : c.index.get? n with
  | some i =>
      have found := (h.position n).symm.trans hi
      have listed : n ∈ g.nonterminals :=
        List.mem_of_getElem? (Grammar.position?_eq_some_iff.mp found)
      rw [Grammar.mention_of_mem listed]
      exact ⟨h, found⟩
  | none =>
      have new : n ∉ g.nonterminals :=
        Grammar.position?_eq_none_iff.mp ((h.position n).symm.trans hi)
      have all := Grammar.nonterminals_mention_of_notMem new
      have last : (g.mention n).position? n = some c.listings.length := by
        rw [Grammar.position?_eq_some_iff, all, h.length_listings, List.getElem?_concat_length]
      refine ⟨⟨?_, ?_, ?_, fun m => ?_, fun l hl => ?_⟩, last⟩
      · rw [all, ← h.names]
        simp [Catalogue.names]
      · exact h.productions.trans (Grammar.numbered_mentionAll [n] g).symm
      · exact h.precedence.trans (Grammar.precedence_mention n).symm
      · rw [SortedMap.get?_insert]
        split
        · rename_i same
          rw [same, last]
        · rename_i other
          rw [h.position, Grammar.position?_mention_of_ne other]
      · refine Eq.trans ?_ (Grammar.alternatives_mentionAll [n] g l.name).symm
        rcases List.mem_append.mp hl with hl | hl
        · exact h.alternatives l hl
        · rw [List.mem_singleton.mp hl, Grammar.alternatives_of_notMem new]

theorem placeAll : ∀ (names : List N) {c : Catalogue T N V} {g : Grammar T N V}, c.Of g →
    (c.placeAll names).Of (g.mentionAll names)
  | [], _, _, h => h
  | n :: names, _, _, h => placeAll names (h.place n).1

/-- The listing at the position of a nonterminal is that of the nonterminal, and no other is. -/
theorem name_eq_iff (h : c.Of g) {owner j : Nat} {l : Listing N} (ho : g.position? n = some owner)
    (hl : c.listings[j]? = some l) : l.name = n ↔ owner = j := by
  have listed : g.position? l.name = some j := by
    rw [Grammar.position?_eq_some_iff, ← h.names, Catalogue.names, List.getElem?_map, hl]
    rfl
  constructor
  · rintro rfl
    exact Option.some.inj (ho.symm.trans listed)
  · rintro rfl
    rw [Grammar.position?_eq_some_iff] at ho listed
    exact Option.some.inj (listed.symm.trans ho)

/-- When all that a production mentions is listed, its number goes to its left-hand side. -/
theorem append {p : Production T N V} {owner : Nat} (h : c.Of (g.mentionAll p.mentions))
    (ho : (g.mentionAll p.mentions).position? p.lhs = some owner) :
    (c.append g.productions.length owner p).Of (g.add p) where
  names := by
    refine Eq.trans (List.ext_getElem? fun i => ?_) h.names
    rw [Catalogue.names, Catalogue.names, Catalogue.append, List.getElem?_map, List.getElem?_map,
      List.getElem?_modify]
    cases c.listings[i]? with
    | none => rfl
    | some l => by_cases same : owner = i <;> simp [same, Listing.append]
  productions := by
    rw [Catalogue.append, h.productions, Grammar.numbered_mentionAll, Grammar.numbered_add]
  precedence := h.precedence.trans (Grammar.precedence_mentionAll _ _)
  position := h.position
  alternatives l hl := by
    obtain ⟨j, hj⟩ := List.getElem?_of_mem hl
    rw [Catalogue.append, List.getElem?_modify] at hj
    obtain ⟨k, hk, rfl⟩ := Option.map_eq_some_iff.mp hj
    have before := h.alternatives k (List.mem_of_getElem? hk)
    rw [Grammar.alternatives_mentionAll] at before
    by_cases same : owner = j
    · have name := (h.name_eq_iff ho hk).mpr same
      rw [if_pos same, Listing.append, before, name, Grammar.alternatives_add_self]
    · have name := mt (h.name_eq_iff ho hk).mp same
      rw [if_neg same, before, Grammar.alternatives_add_of_ne g (Ne.symm name)]

/-- To append a production gives its number, which goes to its left-hand side. -/
theorem exists_add (h : c.Of g) (p : Production T N V) :
    ∃ c', c.add? p = some (g.productions.length, c') ∧ c'.Of (g.add p) := by
  obtain ⟨placed, owner⟩ := h.place p.lhs
  have all := placed.placeAll (p.rhs.filterMap Symbol.nonterminal?)
  have stays := Grammar.position?_of_prefix
    (Grammar.prefix_mentionAll (p.rhs.filterMap Symbol.nonterminal?) (g.mention p.lhs)) owner
  have number : c.productions.length = g.productions.length := by
    rw [h.productions, Grammar.numbered, List.length_map, List.length_zipIdx]
  have inside : (c.place p.lhs).1 <
      ((c.place p.lhs).2.placeAll (p.rhs.filterMap Symbol.nonterminal?)).listings.length := by
    rw [all.length_listings]
    exact (List.getElem?_eq_some_iff.mp (Grammar.position?_eq_some_iff.mp stays)).1
  refine ⟨_, ?_, all.append (p := p) stays⟩
  rw [add?, number]
  exact if_pos inside

/-- No edit fails, and the catalogue stays one of the grammar. -/
theorem exists_edit (h : c.Of g) (e : Grammar.Edit T N V) :
    ∃ c', c.edit? e = some c' ∧ c'.Of (g.edit e) := by
  cases e with
  | mention n => exact ⟨_, rfl, (h.place n).1⟩
  | add p =>
      obtain ⟨c', added, h'⟩ := h.exists_add p
      exact ⟨c', by rw [edit?, added, Option.map_some], h'⟩
  | declare assoc members =>
      refine ⟨_, rfl, h.names, h.productions, ?_, h.position, h.alternatives⟩
      exact congrArg (·.declare assoc members) h.precedence

/-- No edits fail one after the other. -/
theorem exists_foldlM : ∀ (edits : List (Grammar.Edit T N V)) {c : Catalogue T N V}
    {g : Grammar T N V}, c.Of g →
    ∃ c', edits.foldlM edit? c = some c' ∧ c'.Of (edits.foldl Grammar.edit g)
  | [], c, _, h => ⟨c, rfl, h⟩
  | e :: edits, c, _, h => by
      obtain ⟨c₁, first, h₁⟩ := h.exists_edit e
      obtain ⟨c₂, rest, h₂⟩ := exists_foldlM edits h₁
      exact ⟨c₂, by rw [List.foldlM_cons, first]; exact rest, h₂⟩

/-! ## What is looked up -/

theorem alternatives?_eq (h : c.Of g) (n : N) : c.alternatives? n = some (g.alternatives n) := by
  rw [alternatives?]
  cases hi : c.index.get? n with
  | some i =>
      -- what the index has is listed there
      have listed : c.names[i]? = some n := by
        rw [h.names, ← Grammar.position?_eq_some_iff, ← h.position, hi]
      rw [Catalogue.names, List.getElem?_map] at listed
      obtain ⟨l, hl, rfl⟩ := Option.map_eq_some_iff.mp listed
      show c.listings[i]?.map Listing.productions = some (g.alternatives l.name)
      rw [hl, Option.map_some, h.alternatives l (List.mem_of_getElem? hl)]
  | none =>
      have new := Grammar.position?_eq_none_iff.mp ((h.position n).symm.trans hi)
      rw [Grammar.alternatives_of_notMem new]

theorem consistent {mentioned : List N} (h : c.Of g) (hm : g.nonterminals = mentioned.eraseDups) :
    c.Consistent mentioned where
  numbered i number p hp := by
    rw [h.productions] at hp
    exact (Grammar.getElem?_numbered.mp hp).1
  listed := h.names.trans hm
  nodup := h.names ▸ g.nodup
  indexed n i := by rw [h.position, Grammar.position?_eq_some_iff, h.names]
  ascending n := by
    refine ⟨_, h.alternatives?_eq n, Grammar.pairwise_alternatives g n, fun i => ?_⟩
    rw [Grammar.mem_alternatives, h.productions]
    simp only [Grammar.getElem?_numbered, true_and]

theorem kept {c' : Catalogue T N V} {g' : Grammar T N V} (h : c.Of g) (h' : c'.Of g')
    (productions : g.numbered <+: g'.numbered) (names : g.nonterminals <+: g'.nonterminals) :
    c.Kept c' where
  productions := by rwa [h.productions, h'.productions]
  names := by rwa [h.names, h'.names]
  positions n i hi := by
    rw [h.position] at hi
    rw [h'.position]
    exact Grammar.position?_of_prefix names hi

end Of

end Catalogue

/-! ## The result -/

namespace Grammar

variable [Ordered N] {g : Grammar T N V}

theorem prefix_edit (g : Grammar T N V) (e : Edit T N V) :
    g.numbered <+: (g.edit e).numbered ∧ g.nonterminals <+: (g.edit e).nonterminals := by
  cases e with
  | mention n =>
      rw [edit, ← numbered_mentionAll [n] g]
      exact ⟨List.prefix_rfl, prefix_mention g n⟩
  | add p =>
      rw [edit, numbered_add]
      exact ⟨List.prefix_append _ _, prefix_mentionAll p.mentions g⟩
  | declare assoc members => exact ⟨List.prefix_rfl, List.prefix_rfl⟩

/-- The nonterminals are listed in the order in which edits mention them first. -/
theorem nonterminals_foldl_edit : ∀ (edits : List (Edit T N V)) {g : Grammar T N V}
    {names : List N}, g.nonterminals = names.eraseDups →
      (edits.foldl edit g).nonterminals = (names ++ edits.flatMap Edit.mentions).eraseDups
  | [], _, names, h => by rw [List.flatMap_nil, List.append_nil]; exact h
  | e :: edits, g, names, h => by
      have first : (g.edit e).nonterminals = (names ++ e.mentions).eraseDups := by
        cases e with
        | mention n => exact nonterminals_mention h n
        | add p => exact nonterminals_mentionAll p.mentions h
        | declare assoc members =>
            rw [Edit.mentions, List.append_nil]
            exact h
      rw [List.foldl_cons, List.flatMap_cons, ← List.append_assoc]
      exact nonterminals_foldl_edit edits first

theorem foldl_edits (clause : Clause T N V) (g : Grammar T N V) :
    clause.edits.foldl edit g = g.write clause := by
  cases clause with
  | mention n => rfl
  | rule lhs alternatives =>
      rw [Clause.edits, List.foldl_cons, List.foldl_map]
      rfl
  | declare assoc members => rfl

/-- Clauses write what their edits make. -/
theorem ofClauses_eq_ofEdits (clauses : List (Clause T N V)) :
    ofClauses clauses = ofEdits (clauses.flatMap Clause.edits) := by
  rw [ofClauses, ofEdits, List.foldl_flatMap]
  simp only [foldl_edits]

/-- A catalogue is kept while edits make a grammar, one edit after the other.  No edit fails, and
what is looked up is what the grammar says.  The books agree with each other, and they list the
nonterminals in the order in which the edits mention them first.  One more edit leaves what is
there at its place.  Clauses are written by such edits. -/
theorem catalogue_in_step :
    (∀ edits : List (Edit T N V), ∃ c, edits.foldlM Catalogue.edit? {} = some c ∧
      c.Of (ofEdits edits) ∧ (∀ n, c.alternatives? n = some ((ofEdits edits).alternatives n)) ∧
      c.Consistent (edits.flatMap Edit.mentions) ∧
      ∀ e, ∃ c', c.edit? e = some c' ∧ c.Kept c') ∧
    ∀ clauses : List (Clause T N V),
      ofClauses clauses = ofEdits (clauses.flatMap Clause.edits) := by
  refine ⟨fun edits => ?_, ofClauses_eq_ofEdits⟩
  obtain ⟨c, kept, h⟩ := Catalogue.of_empty.exists_foldlM edits
  have none : (empty : Grammar T N V).nonterminals = ([] : List N).eraseDups := rfl
  refine ⟨c, kept, h, h.alternatives?_eq, h.consistent (nonterminals_foldl_edit edits none), ?_⟩
  intro e
  obtain ⟨c', edited, h'⟩ := h.exists_edit e
  obtain ⟨productions, names⟩ := prefix_edit (ofEdits edits) e
  exact ⟨c', edited, h.kept h' productions names⟩

-- A nonterminal that a right-hand side mentions first comes behind the left-hand side.
example : (ofEdits [.add ⟨1, [.nonterminal 2, .nonterminal 1], none, total⟩, .mention 0] :
    Grammar Nat Nat Nat).nonterminals = [1, 2, 0] := by
  decide

end Grammar

end BottomUp
