import BottomUp.Proofs.Outline
import Mathlib.Data.List.Nodup

/-!
# Operator grammars

An operator grammar has a sentence be an expression, and an expression be two expressions
with a binary operator between them, or an operand.  There is one production for each
operator, and they are ambiguous.  What makes up for that is a precedence table that
declares each operator once.

`Operators` are the data of such a grammar, `Operators.grammar` is the grammar as it is
written down, and `validate_grammar` says that it is fit for a table.

The precedences put the operators in an order.  It says which operators may stand at the
root of an operand of another one (`AdmitsLeft`, `AdmitsRight`), and which do not go together
at all (`Ties`).
-/

namespace BottomUp

variable {T N V : Type}

/-! ## Precedence tables without repetitions -/

namespace PrecedenceTable

variable [DecidableEq T]

theorem firstRepeat_eq_none_iff : ∀ {ts seen : List T},
    firstRepeat seen ts = none ↔ ts.Nodup ∧ ∀ t ∈ ts, t ∉ seen
  | [], _ => by simp [firstRepeat]
  | t :: ts, seen => by
      rw [firstRepeat]
      split
      · rename_i hs
        simp [hs]
      · rename_i hs
        rw [firstRepeat_eq_none_iff, List.nodup_cons]
        constructor
        · rintro ⟨hn, h⟩
          refine ⟨⟨fun ht => h t ht List.mem_cons_self, hn⟩, ?_⟩
          rintro u (_ | ⟨_, hu⟩)
          · exact hs
          · exact fun hm => h u hu (List.mem_cons_of_mem _ hm)
        · rintro ⟨⟨ht, hn⟩, h⟩
          refine ⟨hn, fun u hu hm => ?_⟩
          rcases List.mem_cons.mp hm with rfl | hm
          · exact ht hu
          · exact h u (List.mem_cons_of_mem _ hu) hm

theorem lookupFrom_eq_some {t : T} {precedence : Precedence} :
    ∀ {groups : List (PrecedenceGroup T)} {level : Nat},
      lookupFrom t level groups = some precedence →
      ∃ k group, groups[k]? = some group ∧ precedence = ⟨level + k, group.assoc⟩
  | [], _, h => by cases h
  | group :: groups, level, h => by
      rw [lookupFrom] at h
      split at h
      · cases h
        exact ⟨0, group, rfl, rfl⟩
      · obtain ⟨k, group', hk, rfl⟩ := lookupFrom_eq_some h
        exact ⟨k + 1, group', hk, by rw [Nat.add_right_comm, Nat.add_assoc]⟩

/-- What is declared is found. -/
theorem exists_lookupFrom {t : T} : ∀ {groups : List (PrecedenceGroup T)} {level : Nat},
    t ∈ groups.flatMap (·.members) → ∃ precedence, lookupFrom t level groups = some precedence
  | [], _, h => by cases h
  | group :: groups, level, h => by
      rw [lookupFrom]
      split
      · exact ⟨_, rfl⟩
      · rename_i hg
        rw [List.flatMap_cons, List.mem_append] at h
        exact exists_lookupFrom (h.resolve_left hg)

/-- One level has one associativity. -/
theorem assoc_eq_of_level_eq {table : PrecedenceTable T} {t u : T} {p q : Precedence}
    (ht : table.lookup t = some p) (hu : table.lookup u = some q) (h : p.level = q.level) :
    p.assoc = q.assoc := by
  obtain ⟨k, group, hk, rfl⟩ := lookupFrom_eq_some ht
  obtain ⟨k', group', hk', rfl⟩ := lookupFrom_eq_some hu
  obtain rfl : k = k' := Nat.add_left_cancel h
  rw [hk] at hk'
  cases hk'
  rfl

end PrecedenceTable

/-! ## Operators -/

/-- Binary operators and an operand, with symbols for sentences and expressions and with the
actions that make values of them. -/
structure Operators (T N V : Type) where
  /-- The nonterminal of sentences. -/
  start : N
  /-- The nonterminal of expressions. -/
  expr : N
  /-- The terminal of an operand. -/
  atom : T
  /-- The operators. -/
  operators : List T
  /-- The declared groups, the loosest first. -/
  groups : List (PrecedenceGroup T)
  /-- The value of a sentence. -/
  whole : List V → V
  /-- The value of an operand. -/
  operand : List V → V
  /-- The value of two expressions with an operator between them. -/
  join : T → List V → V
  /-- Sentences are not expressions. -/
  start_ne : start ≠ expr
  /-- No operator is listed twice. -/
  nodup : operators.Nodup
  /-- An operand is no operator. -/
  atom_notMem : atom ∉ operators
  /-- Nothing is declared twice. -/
  declared_nodup : (groups.flatMap (·.members)).Nodup
  /-- Every operator is declared. -/
  mem_declared : ∀ t ∈ operators, t ∈ groups.flatMap (·.members)

namespace Operators

/-- A sentence is an expression. -/
def sentence (ops : Operators T N V) : Production T N V :=
  ⟨ops.start, [.nonterminal ops.expr], none, ops.whole⟩

/-- An expression may be two expressions with an operator between them. -/
def operation (ops : Operators T N V) (t : T) : Production T N V :=
  ⟨ops.expr, [.nonterminal ops.expr, .terminal t, .nonterminal ops.expr], none, ops.join t⟩

/-- An expression may be an operand. -/
def single (ops : Operators T N V) : Production T N V :=
  ⟨ops.expr, [.terminal ops.atom], none, ops.operand⟩

/-- The grammar of the operators. -/
def grammar [DecidableEq N] (ops : Operators T N V) : Grammar T N V :=
  .ofClauses <|
    .rule ops.start [([.nonterminal ops.expr], none, ops.whole)] ::
    .rule ops.expr
      ((ops.operators.map fun t =>
          ([.nonterminal ops.expr, .terminal t, .nonterminal ops.expr], none, ops.join t)) ++
        [([.terminal ops.atom], none, ops.operand)]) ::
    ops.groups.map fun group => .declare group.assoc group.members

end Operators

/-! ## What clauses write -/

namespace Grammar

variable [DecidableEq N] {g : Grammar T N V}

theorem mem_nonterminals_add {n : N} {p : Production T N V} :
    n ∈ (g.add p).nonterminals ↔ n ∈ g.nonterminals ∨ n ∈ p.mentions :=
  mem_mentionAll

theorem productions_foldl_add (lhs : N)
    (alternatives : List (List (Symbol T N) × Option T × (List V → V))) :
    ∀ g : Grammar T N V,
      (alternatives.foldl (fun g (rhs, tag, act) => g.add ⟨lhs, rhs, tag, act⟩) g).productions =
        g.productions ++ alternatives.map fun (rhs, tag, act) => ⟨lhs, rhs, tag, act⟩ := by
  induction alternatives with
  | nil => simp
  | cons alternative alternatives ih =>
      intro g
      have added (p : Production T N V) : (g.add p).productions = g.productions ++ [p] := rfl
      rw [List.foldl_cons, ih, added, List.map_cons, List.append_assoc, List.singleton_append]

theorem mem_nonterminals_foldl_add {n lhs : N}
    (alternatives : List (List (Symbol T N) × Option T × (List V → V))) :
    ∀ g : Grammar T N V,
      n ∈ (alternatives.foldl (fun g (rhs, tag, act) =>
          g.add ⟨lhs, rhs, tag, act⟩) g).nonterminals ↔
        n ∈ g.nonterminals ∨ ∃ alternative ∈ alternatives, n ∈ Production.mentions
          ⟨lhs, alternative.1, alternative.2.1, alternative.2.2⟩ := by
  induction alternatives with
  | nil => simp
  | cons alternative alternatives ih =>
      intro g
      rw [List.foldl_cons, ih, mem_nonterminals_add]
      simp only [List.exists_mem_cons_iff, or_assoc]

theorem precedence_foldl_add (lhs : N)
    (alternatives : List (List (Symbol T N) × Option T × (List V → V))) :
    ∀ g : Grammar T N V,
      (alternatives.foldl (fun g (rhs, tag, act) => g.add ⟨lhs, rhs, tag, act⟩) g).precedence =
        g.precedence := by
  induction alternatives with
  | nil => exact fun _ => rfl
  | cons alternative alternatives ih => exact fun g => ih _

theorem precedence_mention (n : N) : (g.mention n).precedence = g.precedence := by
  unfold mention
  split <;> rfl

/-- A rule appends its alternatives. -/
theorem productions_rule (g : Grammar T N V) (lhs : N)
    (alternatives : List (List (Symbol T N) × Option T × (List V → V))) :
    (g.write (.rule lhs alternatives)).productions =
      g.productions ++ alternatives.map fun (rhs, tag, act) => ⟨lhs, rhs, tag, act⟩ := by
  rw [write, productions_foldl_add, productions_mention]

theorem mem_nonterminals_rule {n lhs : N}
    {alternatives : List (List (Symbol T N) × Option T × (List V → V))} :
    n ∈ (g.write (.rule lhs alternatives)).nonterminals ↔
      (n ∈ g.nonterminals ∨ n = lhs) ∨ ∃ alternative ∈ alternatives, n ∈ Production.mentions
        ⟨lhs, alternative.1, alternative.2.1, alternative.2.2⟩ := by
  rw [write, mem_nonterminals_foldl_add, mem_mention]

theorem precedence_rule (g : Grammar T N V) (lhs : N)
    (alternatives : List (List (Symbol T N) × Option T × (List V → V))) :
    (g.write (.rule lhs alternatives)).precedence = g.precedence := by
  rw [write, precedence_foldl_add, precedence_mention]

/-- Declarations append their groups and leave the rest as it is. -/
theorem foldl_write_declare (groups : List (PrecedenceGroup T)) : ∀ g : Grammar T N V,
    (groups.map fun group => Clause.declare group.assoc group.members).foldl write g =
      { g with precedence := ⟨g.precedence.groups ++ groups⟩ } := by
  induction groups with
  | nil => simp
  | cons group groups ih =>
      intro g
      rw [List.map_cons, List.foldl_cons, ih]
      simp [write, declare, PrecedenceTable.declare]

end Grammar

/-! ## The grammar of the operators -/

namespace Operators

section

variable [DecidableEq N] (ops : Operators T N V)

theorem precedence_grammar : ops.grammar.precedence = ⟨ops.groups⟩ := by
  rw [grammar, Grammar.ofClauses, List.foldl_cons, List.foldl_cons, Grammar.foldl_write_declare,
    Grammar.precedence_rule, Grammar.precedence_rule]
  rfl

theorem productions_grammar :
    ops.grammar.productions =
      ops.sentence :: (ops.operators.map ops.operation ++ [ops.single]) := by
  rw [grammar, Grammar.ofClauses, List.foldl_cons, List.foldl_cons, Grammar.foldl_write_declare,
    Grammar.productions_rule, Grammar.productions_rule, List.map_append, List.map_map]
  rfl

theorem mem_productions {production : Production T N V} :
    production ∈ ops.grammar.productions ↔ production = ops.sentence ∨
      (∃ t ∈ ops.operators, production = ops.operation t) ∨ production = ops.single := by
  simp only [productions_grammar, List.mem_cons, List.mem_append, List.mem_map, eq_comm,
    List.not_mem_nil, or_false]

theorem eq_or_eq_of_mem_nonterminals {n : N} (h : n ∈ ops.grammar.nonterminals) :
    n = ops.start ∨ n = ops.expr := by
  rw [grammar, Grammar.ofClauses, List.foldl_cons, List.foldl_cons, Grammar.foldl_write_declare]
    at h
  have h := Grammar.mem_nonterminals_rule.mp h
  rw [Grammar.mem_nonterminals_rule] at h
  have listed : ((n = ops.start ∨ ops.expr = n) ∨ n = ops.expr) ∨
      (∃ t, t ∈ ops.operators) ∧ (n = ops.expr ∨ ops.expr = n) ∨ n = ops.expr := by
    simpa [Grammar.empty, Production.mentions, Symbol.nonterminal?] using h
  grind

end

/-- The number of the production of an operator. -/
def number [DecidableEq T] (ops : Operators T N V) (t : T) : Nat := ops.operators.idxOf t + 1

/-- The number of the production of an operand. -/
def singleNumber (ops : Operators T N V) : Nat := ops.operators.length + 1

variable [DecidableEq T] [DecidableEq N] {ops : Operators T N V} {t u : T}

omit [DecidableEq T] in
theorem getElem?_sentence (ops : Operators T N V) :
    ops.grammar.productions[0]? = some ops.sentence := by
  rw [productions_grammar]
  rfl

theorem getElem?_operation (ht : t ∈ ops.operators) :
    ops.grammar.productions[ops.number t]? = some (ops.operation t) := by
  have hl := List.idxOf_lt_length_of_mem ht
  rw [productions_grammar, number, List.getElem?_cons_succ,
    List.getElem?_append_left (by simpa using hl), List.getElem?_map, List.getElem?_eq_getElem hl,
    List.getElem_idxOf, Option.map_some]

omit [DecidableEq T] in
theorem getElem?_single (ops : Operators T N V) :
    ops.grammar.productions[ops.singleNumber]? = some ops.single := by
  rw [productions_grammar, singleNumber, List.getElem?_cons_succ,
    List.getElem?_append_right (by simp)]
  simp

/-- The productions are that of sentences, those of the operators, and that of operands. -/
theorem getElem?_cases {p : Nat} {production : Production T N V}
    (h : ops.grammar.productions[p]? = some production) :
    (p = 0 ∧ production = ops.sentence) ∨
      (∃ t ∈ ops.operators, p = ops.number t ∧ production = ops.operation t) ∨
      p = ops.singleNumber ∧ production = ops.single := by
  rw [productions_grammar] at h
  cases p with
  | zero =>
      cases h
      exact .inl ⟨rfl, rfl⟩
  | succ p =>
      rw [List.getElem?_cons_succ, List.getElem?_append, List.length_map] at h
      split at h
      · rename_i hl
        rw [List.getElem?_map, List.getElem?_eq_getElem hl] at h
        cases h
        refine .inr (.inl ⟨_, List.getElem_mem hl, ?_, rfl⟩)
        rw [number, ops.nodup.idxOf_getElem]
      · rename_i hl
        rw [List.getElem?_singleton, Option.ite_none_right_eq_some] at h
        obtain ⟨hp, hs⟩ := h
        cases hs
        refine .inr (.inr ⟨?_, rfl⟩)
        rw [singleNumber]
        omega

omit [DecidableEq T] in
/-- Only the first production has the nonterminal of sentences on the left. -/
theorem alternatives_start (ops : Operators T N V) :
    ops.grammar.alternatives ops.start = [0] := by
  have others : ∀ production ∈ ops.operators.map ops.operation ++ [ops.single],
      production.lhs ≠ ops.start := by
    intro production h
    rcases List.mem_append.mp h with h | h
    · obtain ⟨t, _, rfl⟩ := List.mem_map.mp h
      exact ops.start_ne.symm
    · rw [List.mem_singleton.mp h]
      exact ops.start_ne.symm
  rw [Grammar.alternatives, Grammar.numbered, productions_grammar, List.zipIdx_cons, List.map_cons,
    List.filterMap_cons, List.filterMap_map]
  have first : ops.sentence.lhs = ops.start := rfl
  simp only [first, if_true, List.cons.injEq, true_and, List.filterMap_eq_nil_iff]
  intro entry h
  obtain ⟨production, p⟩ := entry
  exact if_neg (others production (List.fst_mem_of_mem_zipIdx h))

end Operators

namespace Operators

variable [Ordered T] [Ordered N]

/-- The grammar of some operators is fit for a table. -/
theorem validate_grammar (ops : Operators T N V) : ops.grammar.validate ops.start = .ok 0 := by
  have listed : ops.start ∈ ops.grammar.nonterminals :=
    Grammar.lhs_mem_nonterminals (List.mem_of_getElem? ops.getElem?_sentence)
  have full : ops.grammar.emptyReachable? ops.start = none := by
    refine List.find?_eq_none.mpr fun n hn => ?_
    have some_alternative : ∃ p, p ∈ ops.grammar.alternatives n := by
      rcases ops.eq_or_eq_of_mem_nonterminals hn with rfl | rfl
      · exact ⟨0, ops.alternatives_start ▸ List.mem_cons_self⟩
      · exact ⟨_, Grammar.mem_alternatives.mpr ⟨_, ops.getElem?_single, rfl⟩⟩
    obtain ⟨p, hp⟩ := some_alternative
    rw [List.isEmpty_eq_false_iff_exists_mem.mpr ⟨p, hp⟩]
    exact Bool.false_ne_true
  have unmentioned : ops.grammar.isReferenced ops.start = false := by
    refine List.any_eq_false.mpr fun production hp => ?_
    rw [decide_eq_true_eq]
    rcases ops.mem_productions.mp hp with rfl | ⟨t, _, rfl⟩ | rfl
    · simp [sentence, ops.start_ne]
    · simp [operation, ops.start_ne]
    · simp [single]
  have once : ops.grammar.precedence.duplicate? = none := by
    rw [precedence_grammar]
    exact PrecedenceTable.firstRepeat_eq_none_iff.mpr ⟨ops.declared_nodup, by simp⟩
  rw [Grammar.validate, if_pos listed, alternatives_start]
  simp only [full, unmentioned, once]
  rfl

end Operators

/-! ## The order of operators -/

namespace Operators

section

variable [DecidableEq T] (ops : Operators T N V)

/-- The precedence of an operator. -/
def rank (t : T) : Precedence :=
  ((⟨ops.groups⟩ : PrecedenceTable T).lookup t).getD ⟨0, .nonAssoc⟩

/-- The left operand of `a` may be an operation with `b`: that binds tighter, or it is of the
same level and the level associates to the left. -/
def AdmitsLeft (a b : T) : Prop :=
  (ops.rank a).level < (ops.rank b).level ∨
    (ops.rank a).level = (ops.rank b).level ∧ (ops.rank a).assoc = .left

/-- The right operand of `a` may be an operation with `b`: that binds tighter, or it is of the
same level and the level associates to the right. -/
def AdmitsRight (a b : T) : Prop :=
  (ops.rank a).level < (ops.rank b).level ∨
    (ops.rank a).level = (ops.rank b).level ∧ (ops.rank a).assoc = .right

/-- The operators are of one level that does not associate. -/
def Ties (a b : T) : Prop :=
  (ops.rank a).level = (ops.rank b).level ∧ (ops.rank a).assoc = .nonAssoc

end

instance (ops : Operators T N V) [DecidableEq T] (a b : T) : Decidable (ops.AdmitsLeft a b) :=
  inferInstanceAs (Decidable (_ ∨ _))

instance (ops : Operators T N V) [DecidableEq T] (a b : T) : Decidable (ops.AdmitsRight a b) :=
  inferInstanceAs (Decidable (_ ∨ _))

variable [DecidableEq T] {ops : Operators T N V} {a b c : T}

theorem lookup_eq (ha : a ∈ ops.operators) :
    (⟨ops.groups⟩ : PrecedenceTable T).lookup a = some (ops.rank a) := by
  have found : ∃ precedence, (⟨ops.groups⟩ : PrecedenceTable T).lookup a = some precedence :=
    PrecedenceTable.exists_lookupFrom (ops.mem_declared a ha)
  obtain ⟨precedence, h⟩ := found
  rw [rank, h, Option.getD_some]

theorem assoc_eq (ha : a ∈ ops.operators) (hb : b ∈ ops.operators)
    (h : (ops.rank a).level = (ops.rank b).level) : (ops.rank a).assoc = (ops.rank b).assoc :=
  PrecedenceTable.assoc_eq_of_level_eq (lookup_eq ha) (lookup_eq hb) h

/-- Before `b` an operation with `a` is an operand of `b`, or `b` belongs to its right operand,
or the two tie. -/
theorem admits_cases (ha : a ∈ ops.operators) (hb : b ∈ ops.operators) :
    ops.AdmitsRight a b ∨ ops.AdmitsLeft b a ∨ ops.Ties a b := by
  rcases Nat.lt_trichotomy (ops.rank a).level (ops.rank b).level with h | h | h
  · exact .inl (.inl h)
  · cases hs : (ops.rank a).assoc with
    | left => exact .inr (.inl (.inr ⟨h.symm, (assoc_eq ha hb h).symm.trans hs⟩))
    | right => exact .inl (.inr ⟨h, hs⟩)
    | nonAssoc => exact .inr (.inr ⟨h, hs⟩)
  · exact .inr (.inl (.inl h))

/-- If an operation with `b` is a left operand of `a`, then `b` does not wait for `a`. -/
theorem AdmitsLeft.not_right (ha : a ∈ ops.operators) (hb : b ∈ ops.operators)
    (h : ops.AdmitsLeft a b) : ¬ ops.AdmitsRight b a := by
  rintro (h' | ⟨h', hs'⟩)
  · rcases h with h | ⟨h, _⟩
    · exact Nat.lt_asymm h h'
    · exact Nat.lt_irrefl _ (h ▸ h')
  · rcases h with h | ⟨h, hs⟩
    · exact Nat.lt_irrefl _ (h' ▸ h)
    · cases hs.symm.trans ((assoc_eq ha hb h).trans hs')

theorem Ties.not_right (h : ops.Ties a b) : ¬ ops.AdmitsRight a b := by
  rintro (h' | ⟨_, hs⟩)
  · exact Nat.lt_irrefl _ (h.1 ▸ h')
  · cases h.2.symm.trans hs

theorem Ties.not_left (ha : a ∈ ops.operators) (hb : b ∈ ops.operators) (h : ops.Ties a b) :
    ¬ ops.AdmitsLeft b a := by
  rintro (h' | ⟨_, hs⟩)
  · exact Nat.lt_irrefl _ (h.1 ▸ h')
  · cases h.2.symm.trans ((assoc_eq ha hb h.1).trans hs)

/-- What may stand left in a right operand may stand right. -/
theorem AdmitsRight.of_left (ha : a ∈ ops.operators) (hb : b ∈ ops.operators)
    (h : ops.AdmitsRight a b) (h' : ops.AdmitsLeft b c) : ops.AdmitsRight a c := by
  rcases h with h | ⟨h, hs⟩
  · rcases h' with h' | ⟨h', _⟩
    · exact .inl (h.trans h')
    · exact .inl (h' ▸ h)
  · rcases h' with h' | ⟨_, hs'⟩
    · exact .inl (h ▸ h')
    · cases hs.symm.trans ((assoc_eq ha hb h).trans hs')

/-- What may stand right in a left operand may stand left. -/
theorem AdmitsLeft.of_right (ha : a ∈ ops.operators) (hb : b ∈ ops.operators)
    (h : ops.AdmitsLeft a b) (h' : ops.AdmitsRight b c) : ops.AdmitsLeft a c := by
  rcases h with h | ⟨h, hs⟩
  · rcases h' with h' | ⟨h', _⟩
    · exact .inl (h.trans h')
    · exact .inl (h' ▸ h)
  · rcases h' with h' | ⟨_, hs'⟩
    · exact .inl (h ▸ h')
    · cases hs.symm.trans ((assoc_eq ha hb h).trans hs')

end Operators

end BottomUp
