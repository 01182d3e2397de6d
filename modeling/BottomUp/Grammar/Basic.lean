import BottomUp.Symbol
import BottomUp.Precedence
import BottomUp.SortedSet

/-!
# Grammars

A grammar is a list of productions, the list of the nonterminals they mention and a
precedence table.  A production is known by its *number*, its position in the list.
Productions are only ever appended, so a number stays valid for good.

The nonterminals are listed in the order of their first mention.  A production mentions
its left-hand side first and then the nonterminals of its right-hand side from left to
right.  A nonterminal may be mentioned without having a production.  That the list has no
repetition and lacks no mentioned name is part of the type, so what is read off a grammar
needs no index to be kept in step: the alternatives of a nonterminal are the numbers of
the productions that have it on the left.

A grammar is written clause by clause (`Clause`): a nonterminal is mentioned, a rule with
its alternatives is given, or a group of operators is declared.
-/

namespace BottomUp

/-- A production with the action that makes the value of its left-hand side from the
values of its right-hand side. -/
structure Production (T N V : Type) where
  /-- The nonterminal it rewrites. -/
  lhs : N
  /-- The symbols it puts in its place. -/
  rhs : List (Symbol T N)
  /-- The terminal whose precedence it takes, if that is not its last one. -/
  tag : Option T
  /-- The value of the left-hand side from the values of the right-hand side. -/
  act : List V → V

namespace Production

variable {T N V : Type}

/-- The nonterminals it mentions, from left to right. -/
def mentions (p : Production T N V) : List N := p.lhs :: p.rhs.filterMap Symbol.nonterminal?

/-- The terminal its precedence is read off: the tag, or else the last terminal. -/
def ranking? (p : Production T N V) : Option T :=
  p.tag.or (p.rhs.filterMap Symbol.terminal?).getLast?

end Production

/-- A grammar with terminals `T` and nonterminals `N` whose actions compute in `V`. -/
structure Grammar (T N V : Type) where
  /-- The nonterminals in the order of their first mention. -/
  nonterminals : List N
  /-- The productions in the order of their numbers. -/
  productions : List (Production T N V)
  /-- The declared precedences. -/
  precedence : PrecedenceTable T
  /-- No nonterminal is listed twice. -/
  nodup : nonterminals.Nodup
  /-- Every mentioned nonterminal is listed. -/
  listed : ∀ p ∈ productions, ∀ n ∈ p.mentions, n ∈ nonterminals

namespace Grammar

variable {T N V : Type}

/-! ## Writing a grammar -/

/-- The grammar without productions. -/
def empty : Grammar T N V := ⟨[], [], ⟨[]⟩, .nil, by simp⟩

instance : Inhabited (Grammar T N V) := ⟨empty⟩

section

variable [DecidableEq N]

/-- List a nonterminal, if it is not listed yet. -/
def mention (g : Grammar T N V) (n : N) : Grammar T N V :=
  if h : n ∈ g.nonterminals then g
  else
    { nonterminals := g.nonterminals ++ [n]
      productions := g.productions
      precedence := g.precedence
      nodup := List.nodup_append.mpr
        ⟨g.nodup, by simp, fun a ha b hb he => h (List.mem_singleton.mp hb ▸ he ▸ ha)⟩
      listed := fun p hp m hm => List.mem_append_left _ (g.listed p hp m hm) }

/-- List some nonterminals in their order. -/
def mentionAll (g : Grammar T N V) (names : List N) : Grammar T N V := names.foldl mention g

@[simp] theorem mem_mention {g : Grammar T N V} {m n : N} :
    m ∈ (g.mention n).nonterminals ↔ m ∈ g.nonterminals ∨ m = n := by
  unfold mention
  split
  · rename_i h
    exact ⟨.inl, fun hm => hm.elim id fun he => he ▸ h⟩
  · simp

@[simp] theorem mem_mentionAll {m : N} : ∀ {names : List N} {g : Grammar T N V},
    m ∈ (g.mentionAll names).nonterminals ↔ m ∈ g.nonterminals ∨ m ∈ names
  | [], _ => by simp [mentionAll]
  | n :: names, g => by
      rw [mentionAll, List.foldl_cons]
      refine mem_mentionAll.trans ?_
      rw [mem_mention, List.mem_cons, or_assoc]

@[simp] theorem productions_mention (g : Grammar T N V) (n : N) :
    (g.mention n).productions = g.productions := by
  unfold mention
  split <;> rfl

@[simp] theorem productions_mentionAll : ∀ (names : List N) (g : Grammar T N V),
    (g.mentionAll names).productions = g.productions
  | [], _ => rfl
  | n :: names, g => by
      rw [mentionAll, List.foldl_cons]
      exact (productions_mentionAll names _).trans (productions_mention g n)

/-- Append a production.  Its number is the number of productions before. -/
def add (g : Grammar T N V) (p : Production T N V) : Grammar T N V where
  nonterminals := (g.mentionAll p.mentions).nonterminals
  productions := g.productions ++ [p]
  precedence := g.precedence
  nodup := (g.mentionAll p.mentions).nodup
  listed q hq n hn := by
    cases List.mem_append.mp hq with
    | inl h => exact mem_mentionAll.mpr (.inl (g.listed q h n hn))
    | inr h => exact mem_mentionAll.mpr (.inr (List.mem_singleton.mp h ▸ hn))

/-- The position of a nonterminal in the list, if it is listed. -/
def position? (g : Grammar T N V) (n : N) : Option Nat := g.nonterminals.findIdx? (· = n)

end

/-- Declare a group of operators that bind tighter than all declared before. -/
def declare (g : Grammar T N V) (assoc : Assoc) (members : List T) : Grammar T N V :=
  { g with precedence := g.precedence.declare assoc members }

/-! ## Clauses -/

/-- One clause of a grammar as it is written down. -/
inductive Clause (T N V : Type) where
  /-- Mention a nonterminal. -/
  | mention (n : N)
  /-- Mention a nonterminal and give it some alternatives: right-hand side, tag and
  action of each. -/
  | rule (lhs : N) (alternatives : List (List (Symbol T N) × Option T × (List V → V)))
  /-- Declare a group of operators. -/
  | declare (assoc : Assoc) (members : List T)

/-- The grammar with one more clause. -/
def write [DecidableEq N] (g : Grammar T N V) : Clause T N V → Grammar T N V
  | .mention n => g.mention n
  | .rule lhs alternatives =>
      alternatives.foldl (fun g (rhs, tag, act) => g.add ⟨lhs, rhs, tag, act⟩) (g.mention lhs)
  | .declare assoc members => g.declare assoc members

/-- The grammar that a list of clauses writes down. -/
def ofClauses [DecidableEq N] (clauses : List (Clause T N V)) : Grammar T N V :=
  clauses.foldl write empty

/-! ## Reading a grammar -/

/-- The right-hand side of a production, and no symbols if there is no such production. -/
def rhs (g : Grammar T N V) (p : Nat) : List (Symbol T N) :=
  match g.productions[p]? with
  | some production => production.rhs
  | none => []

/-- The numbers of the productions in ascending order, each with its production. -/
def numbered (g : Grammar T N V) : List (Nat × Production T N V) :=
  g.productions.zipIdx.map fun (production, p) => (p, production)

/-- The numbers of the productions of a nonterminal in ascending order. -/
def alternatives [DecidableEq N] (g : Grammar T N V) (n : N) : List Nat :=
  g.numbered.filterMap fun (p, production) => if production.lhs = n then some p else none

/-- The terminals that occur on right-hand sides. -/
def terminals [Ordered T] (g : Grammar T N V) : SortedSet T :=
  .ofList (g.productions.flatMap fun production => production.rhs.filterMap Symbol.terminal?)

/-! ## Laws -/

theorem mem_numbered {g : Grammar T N V} {p : Nat} {production : Production T N V} :
    (p, production) ∈ g.numbered ↔ g.productions[p]? = some production := by
  simp only [numbered, List.mem_map, Prod.exists, List.mem_zipIdx_iff_getElem?, Prod.mk.injEq]
  exact ⟨fun ⟨_, _, h, hp, hq⟩ => hp ▸ hq ▸ h, fun h => ⟨production, p, h, rfl, rfl⟩⟩

theorem mem_alternatives [DecidableEq N] {g : Grammar T N V} {n : N} {p : Nat} :
    p ∈ g.alternatives n ↔ ∃ production, g.productions[p]? = some production ∧ production.lhs = n := by
  simp only [alternatives, List.mem_filterMap, Prod.exists]
  constructor
  · rintro ⟨q, production, hmem, h⟩
    split at h
    · rename_i hn
      cases h
      exact ⟨production, mem_numbered.mp hmem, hn⟩
    · cases h
  · rintro ⟨production, hp, hn⟩
    exact ⟨p, production, mem_numbered.mpr hp, by rw [if_pos hn]⟩

theorem rhs_of_getElem? {g : Grammar T N V} {p : Nat} {production : Production T N V}
    (h : g.productions[p]? = some production) : g.rhs p = production.rhs := by
  simp only [rhs, h]

theorem lhs_mem_nonterminals {g : Grammar T N V} {p : Production T N V} (h : p ∈ g.productions) :
    p.lhs ∈ g.nonterminals :=
  g.listed p h p.lhs List.mem_cons_self

theorem mem_nonterminals_of_mem_rhs {g : Grammar T N V} {p : Production T N V} {n : N}
    (h : p ∈ g.productions)
    (hn : Symbol.nonterminal n ∈ p.rhs) : n ∈ g.nonterminals :=
  g.listed p h n <| List.mem_cons_of_mem _ <|
    List.mem_filterMap.mpr ⟨_, hn, Symbol.nonterminal?_eq_some.mpr rfl⟩

@[simp] theorem mem_terminals [Ordered T] {g : Grammar T N V} {t : T} :
    t ∈ g.terminals ↔ ∃ production ∈ g.productions, Symbol.terminal t ∈ production.rhs := by
  simp [terminals]

end Grammar

end BottomUp
