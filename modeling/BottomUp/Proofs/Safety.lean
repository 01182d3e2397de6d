import BottomUp.Proofs.Soundness

/-!
# Safety of the parser

With a table of its own grammar a parser meets none of the faults that only an ill-made
table can cause.  Whatever it reads, the states on its stack are a path of the automaton
from the first state (`Outline.IsPath`), each entry but the bottom one has a value, and a
syntax error is an error cell of the state on top or a token whose terminal the grammar
lacks (`parse_safe`).

The stack of a parser has the states of the stack with the trees, so this too is read off
the parse to trees.
-/

namespace BottomUp

variable {K T N V E : Type}

namespace Outline

/-- The states are a path from the first state, the last state first. -/
inductive IsPath (o : Outline T N) : Nat → List Nat → Prop
  | first : IsPath o 0 [0]
  | next {i j : Nat} {s : Symbol T N} {states : List Nat} :
      IsPath o i states → o.next? i s = some j → IsPath o j (j :: states)

/-- The states on the stack are a path, and each entry but the bottom one has a value. -/
structure Supports (o : Outline T N) (stack : List (Entry V)) : Prop where
  path : ∃ i, o.IsPath i (stack.map Entry.state)
  values : ∃ above, stack = above ++ [⟨0, none⟩] ∧ ∀ e ∈ above, e.value?.isSome = true

variable {o : Outline T N} {g : Grammar T N V} {r : Reader K T V}

theorem Grows.path {i : Nat} {stack : List (Entry (Tree K))} {stack' : List (Entry V)}
    (h : o.Grows g r i stack) (hs : List.Forall₂ (Entry.Shows g r) stack stack') :
    o.IsPath i (stack'.map Entry.state) := by
  induction h generalizing stack' with
  | bottom =>
      cases hs with
      | cons he hs =>
          cases hs with
          | nil =>
              rw [List.map_cons, ← he.state]
              exact .first
  | push _ _ _ hn ih =>
      cases hs with
      | cons he hs =>
          rw [List.map_cons, ← he.state]
          exact .next (ih hs) hn

theorem Grows.values {i : Nat} {stack : List (Entry (Tree K))} {stack' : List (Entry V)}
    (h : o.Grows g r i stack) (hs : List.Forall₂ (Entry.Shows g r) stack stack') :
    ∃ above, stack' = above ++ [⟨0, none⟩] ∧ ∀ e ∈ above, e.value?.isSome = true := by
  induction h generalizing stack' with
  | bottom =>
      cases hs with
      | @cons _ e _ _ he hs =>
          cases hs with
          | nil =>
              obtain ⟨state, value⟩ := e
              cases he.state
              cases Option.map_eq_none_iff.mp he.value.symm
              exact ⟨[], rfl, by simp⟩
  | push _ _ _ _ ih =>
      cases hs with
      | @cons _ e _ stack' he hs =>
          obtain ⟨above, rfl, hvalues⟩ := ih hs
          refine ⟨e :: above, rfl, ?_⟩
          intro e' hm
          rcases List.mem_cons.mp hm with rfl | hm
          · obtain ⟨v, hv, _⟩ := Option.map_eq_some_iff.mp he.value.symm
            rw [hv]
            rfl
          · exact hvalues e' hm

end Outline

namespace Parser

variable [Ordered T] [Ordered N]

/-- A parse goes through the configuration. -/
inductive Reaches (m : Parser K T N V) (input : List (Except E K)) : Configuration K V E → Prop
  | first {c : Configuration K V E} : m.begin input = .continues c → Reaches m input c
  | next {c c' : Configuration K V E} :
      Reaches m input c → m.step c = .continues c' → Reaches m input c'

variable {m : Parser K T N V} {o : Outline T N} {start : Nat} {input : List (Except E K)}

/-- The parse to trees goes through such configurations too, and keeps what it keeps. -/
theorem Reaches.keeps (ho : o.Lawful m.grammar start) (hd : o.Drives m.grammar start m.table)
    {c' : Configuration K V E} (h : m.Reaches input c') :
    ∃ c, c.Shows m.grammar m.reader c' ∧ o.Keeps m.grammar m.reader input c := by
  induction h with
  | first hb =>
      have related := begin_shows m input
      have sound := begin_sound hd input
      rw [hb] at related
      generalize m.toTrees.begin input = p at related sound
      cases related with
      | continues hc =>
          cases sound with
          | continues hk => exact ⟨_, hc, hk⟩
  | next _ hs ih =>
      obtain ⟨c, hc, hk⟩ := ih
      have related := step_shows hc
      have sound := step_sound ho hd hk
      rw [hs] at related
      generalize m.toTrees.step c = p at related sound
      cases related with
      | continues hc =>
          cases sound with
          | continues hk => exact ⟨_, hc, hk⟩

end Parser

/-- The reports of faults that only an ill-made table can cause. -/
def SyntaxFault.internal : List String :=
  [unknownProduction.message, stackUnderflow.message, missingGoto.message, malformedStack.message]

/-- No report of a settled cell is one of these. -/
theorem Action.not_mem_internal {message : String} (h : message ∈ reports) :
    message ∉ SyntaxFault.internal := by
  simp only [reports, List.mem_cons, List.not_mem_nil, or_false] at h
  rcases h with rfl | rfl | rfl
  · decide
  · decide
  · decide

namespace Parser

variable [Ordered T] [Ordered N]

/-- A parse ends harmlessly: no length is too long, and a syntax error is none of these
faults, but an error cell of the state on top or a terminal that the grammar lacks. -/
structure Harmless (m : Parser K T N V) (how : Ending K T V E) : Prop where
  fits : how ≠ .overflow
  rejects {e : SyntaxError K T V} : how = .rejected e →
    e.state = m.top e.stack ∧ e.fault.message ∉ SyntaxFault.internal ∧
    ((∃ conflicts ahead, m.table.action? e.state (e.token.map m.reader.terminal) =
        some (.error e.fault.message conflicts ahead)) ∨
      ∃ k, e.token = some k ∧ m.reader.terminal k ∉ m.grammar.terminals)

variable {m : Parser K T N V} {o : Outline T N} {start : Nat} {input : List (Except E K)}

/-- What ends a parse to trees soundly ends the parse to values harmlessly. -/
theorem Finishes.harmless (hd : o.Drives m.grammar start m.table) {how : Ending K T (Tree K) E}
    {how' : Ending K T V E} {c : Configuration K (Tree K) E} (h : m.Finishes start input c how)
    (hs : how.Shows m.grammar m.reader how') : m.Harmless how' := by
  cases h with
  | accepted _ _ _ =>
      cases hs with
      | accepted _ => exact ⟨nofun, nofun⟩
  | lexical e =>
      cases hs with
      | lexical _ => exact ⟨nofun, nofun⟩
  | reported ha =>
      cases hs with
      | rejected hstack =>
          refine ⟨nofun, ?_⟩
          intro e he
          cases he
          rw [top_shows hstack] at ha ⊢
          exact ⟨rfl, Action.not_mem_internal (hd.error ha), .inl ⟨_, _, ha⟩⟩
  | unknown hk =>
      cases hs with
      | rejected hstack =>
          refine ⟨nofun, ?_⟩
          intro e he
          cases he
          have unexpected : SyntaxFault.noAction.message ∉ SyntaxFault.internal := by decide
          exact ⟨top_shows hstack, unexpected, .inr ⟨_, rfl, hk⟩⟩

end Parser

/-- For every grammar, start symbol, policy and method: if there is a table, its numbers are
in range, and on every stream of tokens a parser with it stays on paths of the automaton
and, if it ends, ends harmlessly. -/
theorem Grammar.parse_safe [Ordered T] [Ordered N] {g : Grammar T N V} {method : Method}
    {start : N} {policy : Policy T} {table : ParseTable T N}
    (ht : (g.compile method start policy).table = .ok table) (r : Reader K T V)
    (input : List (Except E K)) :
    table.InRange ∧ ∃ p, g.validate start = .ok p ∧
      (∀ c, (⟨g, table, r⟩ : Parser K T N V).Reaches input c →
        (g.outline method start p).Supports c.stack) ∧
      ∀ steps how c, (⟨g, table, r⟩ : Parser K T N V).parse steps input = some (how, c) →
        (⟨g, table, r⟩ : Parser K T N V).Harmless how := by
  obtain ⟨p, hv, verdict, hr⟩ := exists_resolved ht
  have ho := lawful_outline (starts_of_validate hv) method
  refine ⟨hr.inRange ho, p, hv, ?_, ?_⟩
  · intro c hc
    obtain ⟨c', hs, hk⟩ := hc.keeps ho hr.drives
    obtain ⟨i, hi⟩ := hk.grows
    exact ⟨⟨i, hi.path hs.stack⟩, hi.values hs.stack⟩
  · intro steps how c h
    obtain ⟨how', c', hrun, hh, _⟩ := Parser.parse_shows h
    exact (Parser.run_sound (m := ⟨g, table, r⟩) ho hr.drives
      (Parser.begin_sound hr.drives input) hrun).harmless hr.drives hh

/-- Two terms without a terminal between them are no sum, and that is reported harmlessly. -/
theorem Grammar.reject_sums : ∃ table e c, (sums.compile .lr1 0 {}).table = .ok table ∧
    table.InRange ∧
    (⟨sums, table, ones⟩ : Parser Nat Nat Nat Nat).parse 20
      ([0, 0].map .ok : List (Except Empty Nat)) = some (.rejected e, c) ∧
    e.state = (⟨sums, table, ones⟩ : Parser Nat Nat Nat Nat).top e.stack ∧
    e.fault.message ∉ SyntaxFault.internal := by
  have ended : ((sums.compile .lr1 0 {}).table.toOption.bind fun table =>
      (⟨sums, table, ones⟩ : Parser Nat Nat Nat Nat).parse 20
        ([0, 0].map .ok : List (Except Empty Nat))).isSome = true := by decide +kernel
  have worthless : sums.evaluate? .lr1 0 {} ones 20 [0, 0] = none := by decide +kernel
  cases ht : (sums.compile .lr1 0 {}).table with
  | error e =>
      rw [ht] at ended
      cases ended
  | ok table =>
      rw [ht] at ended
      obtain ⟨⟨how, c⟩, hp⟩ := Option.isSome_iff_exists.mp ended
      have hp : (⟨sums, table, ones⟩ : Parser Nat Nat Nat Nat).parse 20
        ([0, 0].map .ok : List (Except Empty Nat)) = some (how, c) := hp
      obtain ⟨inRange, p, _, _, harmless⟩ :=
        parse_safe ht ones ([0, 0].map .ok : List (Except Empty Nat))
      have harmless := harmless 20 how c hp
      cases how with
      | accepted v =>
          rw [evaluate?, ht] at worthless
          simp only [hp] at worthless
          cases worthless
      | lexical e => exact e.elim
      | rejected e =>
          obtain ⟨state, internal, _⟩ := harmless.rejects rfl
          exact ⟨table, e, c, rfl, inRange, hp, state, internal⟩
      | overflow => exact absurd rfl harmless.fits

end BottomUp
