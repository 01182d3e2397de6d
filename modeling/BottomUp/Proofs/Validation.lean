import BottomUp.Proofs.Expectation
import BottomUp.Proofs.Operators
import BottomUp.Proofs.Unreachable

/-!
# Which fault is found

Validation goes through the faults that a grammar can have, one kind after the other, and
reports the first one that it finds.  Here each kind is told without a search (`Faulty`): by
what the start symbol derives, by counting productions, and by places in the lists of
nonterminals and of declared terminals.  The kinds are numbered in the order in which they are
looked for (`GrammarError.rank`).

A nonterminal is reached if and only if it occurs in something that the start symbol derives
(`mem_reachable_iff`).  So the search for nonterminals without productions finds the first that
occurs, and each kind of fault that validation has passed is one that the grammar does not have
(`validate_spec`).

The two lists are in the order in which a grammar is written: `nonterminals_ofClauses` and
`declared_ofClauses`.
-/

namespace BottomUp

variable {T N V : Type}

/-- The first member of a list with a property is determined. -/
theorem eq_of_first {α : Type} {P : α → Prop} {l before after before' after' : List α} {a a' : α}
    (place : l = before ++ a :: after) (ha : P a) (first : ∀ b ∈ before, ¬ P b)
    (place' : l = before' ++ a' :: after') (ha' : P a') (first' : ∀ b ∈ before', ¬ P b) :
    a = a' := by
  classical
  have found : l.find? (fun b => decide (P b)) = some a :=
    List.find?_eq_some_iff_append.mpr ⟨by simpa using ha, _, _, place, by simpa using first⟩
  have found' : l.find? (fun b => decide (P b)) = some a' :=
    List.find?_eq_some_iff_append.mpr ⟨by simpa using ha', _, _, place', by simpa using first'⟩
  exact Option.some.inj (found.symm.trans found')

/-! ## Declarations -/

namespace PrecedenceTable

variable [DecidableEq T] {t : T}

theorem firstRepeat_eq_some_iff : ∀ {ts seen : List T},
    firstRepeat seen ts = some t ↔ ∃ before after, ts = before ++ t :: after ∧
      (t ∈ seen ∨ t ∈ before) ∧ before.Nodup ∧ ∀ u ∈ before, u ∉ seen
  | [], _ => by simp [firstRepeat]
  | u :: ts, seen => by
      rw [firstRepeat]
      split
      · rename_i hu
        constructor
        · intro h
          cases h
          exact ⟨[], ts, rfl, .inl hu, .nil, by simp⟩
        · rintro ⟨before, after, h, -, -, new⟩
          cases before with
          | nil =>
              cases h
              rfl
          | cons v before =>
              cases h
              exact absurd hu (new u List.mem_cons_self)
      · rename_i hu
        rw [firstRepeat_eq_some_iff]
        constructor
        · rintro ⟨before, after, rfl, repeated, nodup, new⟩
          refine ⟨u :: before, after, rfl, ?_, List.nodup_cons.mpr ⟨fun h => ?_, nodup⟩, ?_⟩
          · rw [List.mem_cons] at repeated ⊢
            tauto
          · exact new u h List.mem_cons_self
          · rintro v (_ | ⟨_, hv⟩)
            · exact hu
            · exact fun hs => new v hv (List.mem_cons_of_mem _ hs)
        · rintro ⟨before, after, h, repeated, nodup, new⟩
          cases before with
          | nil =>
              cases h
              exact absurd repeated (by simp [hu])
          | cons v before =>
              cases h
              obtain ⟨once, nodup⟩ := List.nodup_cons.mp nodup
              refine ⟨before, after, rfl, ?_, nodup, fun v hv => ?_⟩
              · rw [List.mem_cons] at repeated ⊢
                tauto
              · rw [List.mem_cons, not_or]
                exact ⟨fun he => once (he ▸ hv), new v (List.mem_cons_of_mem _ hv)⟩

/-- The duplicate stands behind an occurrence of its own, and nothing before does. -/
theorem duplicate?_eq_some_iff {table : PrecedenceTable T} : table.duplicate? = some t ↔
    ∃ before after, table.declared = before ++ t :: after ∧ t ∈ before ∧ before.Nodup := by
  simp [duplicate?, firstRepeat_eq_some_iff]

end PrecedenceTable

/-- The number of a kind of fault in the order in which they are looked for. -/
def GrammarError.rank : GrammarError T N → Nat
  | .unknownStart _ => 0
  | .noStartProduction _ => 1
  | .multipleStartProductions _ _ => 1
  | .emptyNonterminal _ => 2
  | .startReferenced _ => 3
  | .duplicatePrecedence _ => 4
  | .undeclaredPrecedence _ => 5
  | .noRulePrecedence _ _ => 5

namespace Grammar

/-! ## The order of writing -/

/-- The nonterminals that a clause mentions, from left to right. -/
def Clause.mentions : Clause T N V → List N
  | .mention n => [n]
  | .rule lhs alternatives =>
      lhs :: alternatives.flatMap fun (rhs, tag, act) => Production.mentions ⟨lhs, rhs, tag, act⟩
  | .declare _ _ => []

/-- The terminals that a clause declares. -/
def Clause.declares : Clause T N V → List T
  | .mention _ => []
  | .rule _ _ => []
  | .declare _ members => members

section

variable [DecidableEq N] {g : Grammar T N V} {names : List N}

theorem nonterminals_mention (h : g.nonterminals = names.eraseDups) (n : N) :
    (g.mention n).nonterminals = (names ++ [n]).eraseDups := by
  have listed : n ∈ g.nonterminals ↔ n ∈ names := by rw [h, List.mem_eraseDups]
  rw [List.eraseDups_append, ← h, mention]
  split
  · rename_i hn
    simp [List.removeAll, listed.mp hn]
  · rename_i hn
    have new : n ∉ names := mt listed.mpr hn
    simp [List.removeAll, new, List.eraseDups_cons]

theorem nonterminals_mentionAll : ∀ (new : List N) {g : Grammar T N V} {names : List N},
    g.nonterminals = names.eraseDups →
      (g.mentionAll new).nonterminals = (names ++ new).eraseDups
  | [], _, names, h => by rw [List.append_nil]; exact h
  | n :: new, _, names, h => by
      rw [mentionAll, List.foldl_cons, List.append_cons]
      exact nonterminals_mentionAll new (nonterminals_mention h n)

theorem nonterminals_foldl_add (lhs : N) :
    ∀ (alternatives : List (List (Symbol T N) × Option T × (List V → V))) {g : Grammar T N V}
      {names : List N}, g.nonterminals = names.eraseDups →
      (alternatives.foldl (fun g (rhs, tag, act) => g.add ⟨lhs, rhs, tag, act⟩) g).nonterminals =
        (names ++ alternatives.flatMap fun (rhs, tag, act) =>
          Production.mentions ⟨lhs, rhs, tag, act⟩).eraseDups
  | [], _, names, h => by rw [List.flatMap_nil, List.append_nil]; exact h
  | (rhs, tag, act) :: alternatives, _, names, h => by
      rw [List.foldl_cons, List.flatMap_cons, ← List.append_assoc]
      exact nonterminals_foldl_add lhs alternatives (nonterminals_mentionAll _ h)

theorem nonterminals_write (h : g.nonterminals = names.eraseDups) (clause : Clause T N V) :
    (g.write clause).nonterminals = (names ++ clause.mentions).eraseDups := by
  cases clause with
  | mention n => exact nonterminals_mention h n
  | rule lhs alternatives =>
      rw [write, Clause.mentions, List.append_cons]
      exact nonterminals_foldl_add lhs alternatives (nonterminals_mention h lhs)
  | declare assoc members =>
      rw [Clause.mentions, List.append_nil]
      exact h

theorem nonterminals_foldl_write : ∀ (clauses : List (Clause T N V)) {g : Grammar T N V}
    {names : List N}, g.nonterminals = names.eraseDups →
    (clauses.foldl write g).nonterminals = (names ++ clauses.flatMap Clause.mentions).eraseDups
  | [], _, names, h => by rw [List.flatMap_nil, List.append_nil]; exact h
  | clause :: clauses, _, names, h => by
      rw [List.foldl_cons, List.flatMap_cons, ← List.append_assoc]
      exact nonterminals_foldl_write clauses (nonterminals_write h clause)

/-- The nonterminals are listed in the order in which the clauses mention them first. -/
theorem nonterminals_ofClauses (clauses : List (Clause T N V)) :
    (ofClauses clauses).nonterminals = (clauses.flatMap Clause.mentions).eraseDups := by
  have none : (empty : Grammar T N V).nonterminals = ([] : List N).eraseDups := rfl
  exact nonterminals_foldl_write clauses none

theorem declared_write (g : Grammar T N V) (clause : Clause T N V) :
    (g.write clause).precedence.declared = g.precedence.declared ++ clause.declares := by
  cases clause with
  | mention n => simp [write, precedence_mention, Clause.declares]
  | rule lhs alternatives => simp [precedence_rule, Clause.declares]
  | declare assoc members =>
      simp [write, Grammar.declare, PrecedenceTable.declare, PrecedenceTable.declared,
        Clause.declares]

/-- The terminals are declared in the order of the clauses. -/
theorem declared_ofClauses (clauses : List (Clause T N V)) :
    (ofClauses clauses).precedence.declared = clauses.flatMap Clause.declares := by
  have after : ∀ (clauses : List (Clause T N V)) (g : Grammar T N V),
      (clauses.foldl write g).precedence.declared =
        g.precedence.declared ++ clauses.flatMap Clause.declares := by
    intro clauses
    induction clauses with
    | nil => simp
    | cons clause clauses ih =>
        intro g
        rw [List.foldl_cons, ih, declared_write, List.flatMap_cons, List.append_assoc]
  exact after clauses empty

end

/-! ## Kinds of faults -/

/-- The start symbol derives a string in which the nonterminal occurs. -/
def Occurs (g : Grammar T N V) (start n : N) : Prop :=
  ∃ left right, g.Derives [.nonterminal start] (left ++ .nonterminal n :: right)

/-- The nonterminal has no production. -/
def Bare (g : Grammar T N V) (n : N) : Prop := ∀ p ∈ g.productions, p.lhs ≠ n

/-- The production with this number, and no other, is one of the nonterminal. -/
def OnlyProduction (g : Grammar T N V) (n : N) (p : Nat) : Prop :=
  ∀ q, (∃ production, g.productions[q]? = some production ∧ production.lhs = n) ↔ q = p

/-- What is wrong with a grammar for a start symbol, whatever else may be wrong. -/
inductive Faulty [DecidableEq N] (g : Grammar T N V) (start : N) : GrammarError T N → Prop
  /-- The start symbol is not mentioned. -/
  | unknownStart : start ∉ g.nonterminals → Faulty g start (.unknownStart start)
  /-- The start symbol has no production. -/
  | noStartProduction : g.Bare start → Faulty g start (.noStartProduction start)
  /-- The start symbol has so many productions. -/
  | multipleStartProductions {count : Nat} :
      g.productions.countP (fun p => p.lhs = start) = count → 1 < count →
      Faulty g start (.multipleStartProductions start count)
  /-- The nonterminal is the first one that occurs and has no production. -/
  | emptyNonterminal {n : N} {before after : List N} : g.nonterminals = before ++ n :: after →
      g.Occurs start n → g.Bare n → (∀ m ∈ before, g.Occurs start m → ¬ g.Bare m) →
      Faulty g start (.emptyNonterminal n)
  /-- Some right-hand side mentions the start symbol. -/
  | startReferenced {p : Production T N V} : p ∈ g.productions → .nonterminal start ∈ p.rhs →
      Faulty g start (.startReferenced start)
  /-- The terminal is declared again, and no other one was before. -/
  | duplicatePrecedence {t : T} {before after : List T} :
      g.precedence.declared = before ++ t :: after → t ∈ before → before.Nodup →
      Faulty g start (.duplicatePrecedence t)

/-- The fault is of the first kind that the grammar has. -/
structure FirstFault [DecidableEq N] (g : Grammar T N V) (start : N) (e : GrammarError T N) :
    Prop where
  fault : g.Faulty start e
  first : ∀ e', g.Faulty start e' → e.rank ≤ e'.rank

section

variable [Ordered T] [Ordered N] {g : Grammar T N V} {start n : N} {p : Nat}
  {e e' : GrammarError T N}

/-! ## Reached nonterminals -/

omit [Ordered T] in
theorem occurs_of_generated (h : Generated g.successors [start] n) : g.Occurs start n := by
  induction h with
  | seed hn =>
      rw [List.mem_singleton.mp hn]
      exact ⟨[], [], .refl⟩
  | @step k n _ hn ih =>
      obtain ⟨left, right, derives⟩ := ih
      obtain ⟨p, hp, rfl, hr⟩ := mem_successors.mp hn
      obtain ⟨before, after, hr⟩ := List.append_of_mem hr
      refine ⟨left ++ before, after ++ right, ?_⟩
      have := derives.tail (.apply left right hp)
      rw [hr] at this
      simpa using this

omit [Ordered T] in
theorem generated_iff_occurs : Generated g.successors [start] n ↔ g.Occurs start n :=
  ⟨occurs_of_generated, fun ⟨_, _, h⟩ => h.generated (by simp)⟩

omit [Ordered T] in
/-- What is reached is what occurs in some string that the start symbol derives. -/
theorem mem_reachable_iff :
    n ∈ g.reachable start ↔ start ∈ g.nonterminals ∧ g.Occurs start n := by
  by_cases hs : start ∈ g.nonterminals
  · rw [mem_reachable hs, generated_iff_occurs]
    exact (and_iff_right hs).symm
  · rw [reachable, if_neg hs, SortedSet.mem_ofList]
    refine iff_of_false (fun h => ?_) fun h => hs h.1
    exact (generated_of_mem_reach h).of_closed (P := fun _ => False)
      (fun m hm => List.not_mem_nil hm) fun m hm => hm.elim

/-! ## The searches -/

omit [Ordered T] in
theorem bare_iff : g.Bare n ↔ g.alternatives n = [] := by
  rw [List.eq_nil_iff_forall_not_mem]
  simp only [mem_alternatives, not_exists, not_and]
  constructor
  · exact fun h q production hq => h production (List.mem_of_getElem? hq)
  · intro h production hp
    obtain ⟨q, hq⟩ := List.getElem?_of_mem hp
    exact h q production hq

omit [Ordered T] in
theorem length_alternatives :
    (g.alternatives n).length = g.productions.countP fun p => p.lhs = n := by
  have entries : g.numbered.map Prod.snd = g.productions := by
    rw [numbered, List.map_map]
    exact List.zipIdx_map_fst 0 _
  rw [alternatives, List.length_filterMap_eq_countP]
  conv_rhs => rw [← entries, List.countP_map]
  refine List.countP_congr fun entry _ => ?_
  by_cases h : entry.2.lhs = n <;> simp [h]

omit [Ordered T] in
theorem not_several_of_bare (bare : g.Bare n) :
    ¬ 1 < g.productions.countP fun p => p.lhs = n := by
  rw [← length_alternatives, bare_iff.mp bare]
  exact Nat.not_lt_zero 1

omit [Ordered T] in
/-- The search finds the first nonterminal that occurs and has no production. -/
theorem emptyReachable?_eq_some_iff (hs : start ∈ g.nonterminals) :
    g.emptyReachable? start = some n ↔ g.Faulty start (.emptyNonterminal n) := by
  have sought (m : N) : ((g.alternatives m).isEmpty && decide (m ∈ g.reachable start)) = true ↔
      g.Bare m ∧ g.Occurs start m := by
    simp [bare_iff, mem_reachable_iff, hs]
  rw [emptyReachable?, List.find?_eq_some_iff_append, sought]
  simp only [Bool.not_eq_true', ← Bool.not_eq_true, sought, not_and']
  constructor
  · rintro ⟨⟨bare, occurs⟩, before, after, place, first⟩
    exact .emptyNonterminal place occurs bare first
  · intro h
    cases h with
    | emptyNonterminal place occurs bare first =>
        exact ⟨⟨bare, occurs⟩, _, _, place, first⟩

theorem isReferenced_iff :
    g.isReferenced start = true ↔ ∃ p ∈ g.productions, .nonterminal start ∈ p.rhs := by
  simp [isReferenced]

/-! ## Kinds that were passed -/

namespace Faulty

omit [Ordered T] in
theorem rank_ne_zero (h : g.Faulty start e) (listed : start ∈ g.nonterminals) : e.rank ≠ 0 := by
  intro hr
  cases h with
  | unknownStart unlisted => exact unlisted listed
  | _ => simp [GrammarError.rank] at hr

omit [Ordered T] in
theorem rank_ne_one (h : g.Faulty start e) (single : g.alternatives start = [p]) :
    e.rank ≠ 1 := by
  intro hr
  cases h with
  | noStartProduction bare => simp [bare_iff.mp bare] at single
  | multipleStartProductions count several =>
      rw [← count, ← length_alternatives, single] at several
      exact Nat.lt_irrefl 1 several
  | _ => simp [GrammarError.rank] at hr

omit [Ordered T] in
theorem rank_ne_two (h : g.Faulty start e) (listed : start ∈ g.nonterminals)
    (nonempty : g.emptyReachable? start = none) : e.rank ≠ 2 := by
  intro hr
  cases h with
  | emptyNonterminal place occurs bare first =>
      have found := (emptyReachable?_eq_some_iff listed).mpr
        (.emptyNonterminal place occurs bare first)
      cases nonempty.symm.trans found
  | _ => simp [GrammarError.rank] at hr

theorem rank_ne_three (h : g.Faulty start e) (unreferenced : ¬ g.isReferenced start = true) :
    e.rank ≠ 3 := by
  intro hr
  cases h with
  | startReferenced hp hm => exact unreferenced (isReferenced_iff.mpr ⟨_, hp, hm⟩)
  | _ => simp [GrammarError.rank] at hr

theorem rank_ne_four (h : g.Faulty start e) (once : g.precedence.duplicate? = none) :
    e.rank ≠ 4 := by
  intro hr
  cases h with
  | duplicatePrecedence place repeated nodup =>
      have found := PrecedenceTable.duplicate?_eq_some_iff.mpr ⟨_, _, place, repeated, nodup⟩
      cases once.symm.trans found
  | _ => simp [GrammarError.rank] at hr

omit [Ordered T] in
theorem rank_le_four (h : g.Faulty start e) : e.rank ≤ 4 := by
  cases h <;> simp [GrammarError.rank]

/-- There is at most one fault of each kind. -/
theorem unique (h : g.Faulty start e) (h' : g.Faulty start e') (hr : e.rank = e'.rank) :
    e = e' := by
  cases h with
  | unknownStart _ =>
      cases h' with
      | unknownStart _ => rfl
      | _ => simp [GrammarError.rank] at hr
  | noStartProduction bare =>
      cases h' with
      | noStartProduction _ => rfl
      | multipleStartProductions count several =>
          exact absurd (count ▸ several) (not_several_of_bare bare)
      | _ => simp [GrammarError.rank] at hr
  | multipleStartProductions count several =>
      cases h' with
      | noStartProduction bare => exact absurd (count ▸ several) (not_several_of_bare bare)
      | multipleStartProductions count' _ => rw [← count, ← count']
      | _ => simp [GrammarError.rank] at hr
  | @emptyNonterminal n _ _ place occurs bare first =>
      cases h' with
      | @emptyNonterminal n' _ _ place' occurs' bare' first' =>
          have same : n = n' := eq_of_first (P := fun m => g.Occurs start m ∧ g.Bare m)
            place ⟨occurs, bare⟩ (fun m hm h => first m hm h.1 h.2)
            place' ⟨occurs', bare'⟩ fun m hm h => first' m hm h.1 h.2
          rw [same]
      | _ => simp [GrammarError.rank] at hr
  | startReferenced _ _ =>
      cases h' with
      | startReferenced _ _ => rfl
      | _ => simp [GrammarError.rank] at hr
  | @duplicatePrecedence t _ _ place repeated nodup =>
      cases h' with
      | @duplicatePrecedence t' _ _ place' repeated' nodup' =>
          have found := PrecedenceTable.duplicate?_eq_some_iff.mpr ⟨_, _, place, repeated, nodup⟩
          have found' :=
            PrecedenceTable.duplicate?_eq_some_iff.mpr ⟨_, _, place', repeated', nodup'⟩
          cases found.symm.trans found'
          rfl
      | _ => simp [GrammarError.rank] at hr

end Faulty

/-- Validation gives the only production of the start symbol if the grammar has no fault, and
else the first one. -/
theorem validate_spec (g : Grammar T N V) (start : N) :
    (∃ p, g.validate start = .ok p ∧ g.alternatives start = [p] ∧ ∀ e, ¬ g.Faulty start e) ∨
      ∃ e, g.validate start = .error e ∧ g.FirstFault start e := by
  rw [validate]
  split
  case isFalse unlisted =>
    exact .inr ⟨_, rfl, .unknownStart unlisted, fun _ _ => Nat.zero_le _⟩
  case isTrue listed =>
    split
    case h_1 none =>
      refine .inr ⟨_, rfl, .noStartProduction (bare_iff.mpr none), fun e h => ?_⟩
      exact Nat.pos_of_ne_zero (h.rank_ne_zero listed)
    case h_3 _ none several =>
      refine .inr ⟨_, rfl, .multipleStartProductions length_alternatives.symm ?_, fun e h => ?_⟩
      · rcases hl : g.alternatives start with _ | ⟨p, _ | ⟨q, rest⟩⟩
        · exact absurd hl none
        · exact absurd hl (several p)
        · simp
      · exact Nat.pos_of_ne_zero (h.rank_ne_zero listed)
    case h_2 p single =>
      -- no fault of the first two kinds is left
      have started {e : GrammarError T N} (h : g.Faulty start e) : 2 ≤ e.rank := by
        have := h.rank_ne_zero listed
        have := h.rank_ne_one single
        omega
      cases he : g.emptyReachable? start with
      | some n =>
          exact .inr ⟨_, rfl, (emptyReachable?_eq_some_iff listed).mp he, fun e h => started h⟩
      | none =>
          dsimp only
          split
          case isTrue referenced =>
            obtain ⟨q, hq, hm⟩ := isReferenced_iff.mp referenced
            refine .inr ⟨_, rfl, .startReferenced hq hm, fun e h => ?_⟩
            have := h.rank_ne_two listed he
            exact Nat.lt_of_le_of_ne (started h) this.symm
          case isFalse unreferenced =>
            have last {e : GrammarError T N} (h : g.Faulty start e) : e.rank = 4 := by
              have := started h
              have := h.rank_ne_two listed he
              have := h.rank_ne_three unreferenced
              have := h.rank_le_four
              omega
            cases hd : g.precedence.duplicate? with
            | some t =>
                obtain ⟨before, after, place, repeated, nodup⟩ :=
                  PrecedenceTable.duplicate?_eq_some_iff.mp hd
                exact .inr ⟨_, rfl, .duplicatePrecedence place repeated nodup,
                  fun e h => Nat.le_of_eq (last h).symm⟩
            | none => exact .inl ⟨p, rfl, single, fun e h => h.rank_ne_four hd (last h)⟩

theorem validate_eq_error_iff : g.validate start = .error e ↔ g.FirstFault start e := by
  rcases validate_spec g start with ⟨p, hv, _, sound⟩ | ⟨e', hv, ⟨fault, first⟩⟩
  · rw [hv]
    exact iff_of_false nofun fun h => sound e h.fault
  · rw [hv]
    constructor
    · rintro ⟨⟩
      exact ⟨fault, first⟩
    · rintro ⟨fault', first'⟩
      have same := fault.unique fault' (Nat.le_antisymm (first e fault') (first' e' fault))
      rw [same]

theorem validate_eq_ok_iff_not_faulty : g.validate start = .ok p ↔
    (∀ e, ¬ g.Faulty start e) ∧ g.OnlyProduction start p := by
  have only {q : Nat} (single : g.alternatives start = [q]) : g.OnlyProduction start q := by
    intro q'
    rw [← mem_alternatives, single, List.mem_singleton]
  rcases validate_spec g start with ⟨q, hv, single, sound⟩ | ⟨e, hv, fault⟩
  · rw [hv]
    constructor
    · rintro ⟨⟩
      exact ⟨sound, only single⟩
    · rintro ⟨_, hp⟩
      rw [(hp q).mp ((only single q).mpr rfl)]
  · rw [hv]
    exact iff_of_false nofun fun h => h.1 e fault.fault

/-! ## The result -/

/-- For every grammar that clauses write down and every start symbol: what the start symbol
reaches are the nonterminals that occur in what it derives, if it is known.  Validation reports
the first fault in the order of `GrammarError`, with the nonterminals in the order in which the
clauses mention them first and the terminals in the order in which they are declared.  If there
is no fault, it gives the only production of the start symbol. -/
theorem validate_decides (clauses : List (Clause T N V)) (start : N) :
    (∀ n, n ∈ (ofClauses clauses).reachable start ↔
      start ∈ (ofClauses clauses).nonterminals ∧ (ofClauses clauses).Occurs start n) ∧
    (ofClauses clauses).nonterminals = (clauses.flatMap Clause.mentions).eraseDups ∧
    (ofClauses clauses).precedence.declared = clauses.flatMap Clause.declares ∧
    (∀ e, (ofClauses clauses).validate start = .error e ↔
      (ofClauses clauses).FirstFault start e) ∧
    ∀ p, (ofClauses clauses).validate start = .ok p ↔
      (∀ e, ¬ (ofClauses clauses).Faulty start e) ∧ (ofClauses clauses).OnlyProduction start p :=
  ⟨fun _ => mem_reachable_iff, nonterminals_ofClauses clauses, declared_ofClauses clauses,
    fun _ => validate_eq_error_iff, fun _ => validate_eq_ok_iff_not_faulty⟩

-- A nonterminal without productions is reported before the start symbol on a right-hand side.
example : (ofClauses [.rule 0 [([.nonterminal 1, .nonterminal 0], none, total)]] :
    Grammar Nat Nat Nat).validate 0 = .error (.emptyNonterminal 1) := by
  rfl

end

end Grammar

end BottomUp
