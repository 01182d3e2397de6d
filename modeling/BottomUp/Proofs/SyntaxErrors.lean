import BottomUp.Proofs.Expectation
import BottomUp.Proofs.Laziness

/-!
# What a syntax error tells

A syntax error carries a stack, the token ahead, a state and the lookaheads that the table
expects in that state.  Whatever the table is, the stack stands on the entry that the parse
began with, and the token is the one behind the tokens that were shifted.  The step that
fails is one of a single configuration (`exists_lacks_of_parse`).  If the table has no action
there, or an error, then the token is not among those that are expected.

The state is that on top of the stack, but for one case.  A reduction takes a right-hand side
off the stack before it asks the grammar for the production.  If the grammar has none, the
error has the state that was on top and the stack without the right-hand side
(`Parser.Strips`).  There is a table with which they do not belong together
(`tells_state_taken_off`).
-/

namespace BottomUp

variable {K T N V E : Type} [Ordered T] [Ordered N]

/-- The syntax error that a parse ended with. -/
def Ending.rejected? {K T V E : Type} : Ending K T V E → Option (SyntaxError K T V)
  | .rejected e => some e
  | _ => none

theorem Ending.rejected?_eq_some_iff {K T V E : Type} {how : Ending K T V E}
    {e : SyntaxError K T V} : how.rejected? = some e ↔ how = .rejected e := by
  cases how <;> simp [rejected?]

theorem ParseTable.mem_expected {table : ParseTable T N} {i : Nat} {a : Lookahead T} :
    a ∈ table.expected i ↔ table.Proceeds i a := by
  obtain ⟨next, terminals, ⟨atEnd, expected⟩ | ⟨atEnd, expected⟩⟩ := table.exists_expected i
  · rw [expected]
    cases a with
    | none => simp [atEnd]
    | some t => simp [terminals]
  · rw [expected]
    cases a with
    | none => simp [atEnd]
    | some t => simp [terminals]

namespace Parser

variable {m : Parser K T N V} {input : List (Except E K)} {c d : Configuration K V E}
  {fault : SyntaxFault} {state steps : Nat} {stack : List (Entry V)} {e : SyntaxError K T V}

/-- A lookahead that the table has at most an error for is not expected. -/
theorem Rejects.notMem_expected (h : m.Rejects c) :
    c.token.map m.reader.terminal ∉ m.table.expected (m.top c.stack) := by
  intro expected
  obtain ⟨action, ha, sure⟩ := ParseTable.mem_expected.mp expected
  rw [h action ha] at sure
  cases sure

/-- The table lists the production to be reduced and the grammar does not have it.  The state
is the one on top, but a right-hand side has been taken off the stack that is left. -/
inductive Strips (m : Parser K T N V) (c : Configuration K V E) :
    SyntaxFault → Nat → List (Entry V) → Prop
  /-- The right-hand side is as long as the table says. -/
  | production {p : Nat} {info : ProductionInfo N} {popped below : List (Entry V)} :
      m.action? c = some (.reduce p) → m.table.productions[p]? = some info →
      m.grammar.productions[p]? = none → m.Splits c.stack info.len popped below →
      Strips m c .unknownProduction (m.top c.stack) below

/-- What is missing is noticed in the state on top, if nothing has been taken off the stack. -/
theorem Lacks.state_eq (h : m.Lacks c fault state stack) :
    state = m.top stack ∨ m.Strips c fault state stack := by
  cases h with
  | action _ => exact .inl rfl
  | reported _ => exact .inl rfl
  | info _ _ => exact .inl rfl
  | height _ _ _ => exact .inl rfl
  | production ha hi splits hp => exact .inr (.production ha hi hp splits)
  | goto _ _ _ _ _ => exact .inl rfl
  | start _ _ => exact .inl rfl
  | form _ _ _ => exact .inl rfl

/-- If the table has at most an error, the stack is left as it is. -/
theorem Lacks.state_of_rejects (h : m.Lacks c fault state stack) (rejects : m.Rejects c) :
    state = m.top c.stack := by
  cases h with
  | action _ => rfl
  | reported _ => rfl
  | info _ _ => rfl
  | height _ _ _ => rfl
  | production _ _ _ _ => rfl
  | goto ha _ _ _ _ => cases rejects _ ha
  | start _ _ => rfl
  | form _ _ _ => rfl

/-- What is missing tells whether the table has at most an error. -/
theorem Lacks.rejects_iff (h : m.Lacks c fault state stack) :
    m.Rejects c ↔ fault = .noAction ∨ ∃ message, fault = .reported message := by
  constructor
  · intro rejects
    cases h with
    | action _ => exact .inl rfl
    | reported _ => exact .inr ⟨_, rfl⟩
    | info ha _ => cases rejects _ ha
    | height ha _ _ => cases rejects _ ha
    | production ha _ _ _ => cases rejects _ ha
    | goto ha _ _ _ _ => cases rejects _ ha
    | start ha _ => cases rejects _ ha
    | form ha _ _ => cases rejects _ ha
  · rintro (rfl | ⟨message, rfl⟩) action ha
    · cases h with
      | action none => cases none.symm.trans ha
    · cases h with
      | reported error =>
          cases error.symm.trans ha
          rfl

/-- A parse that ends with a syntax error comes by a configuration that lacks something for
its step. -/
theorem exists_lacks_of_parse (h : m.parse steps input = some (.rejected e, d)) :
    ∃ c, m.Reaches input c ∧ m.step c = .ends (.rejected e) d ∧
      m.Lacks c e.fault e.state e.stack ∧ e.token = c.token ∧
      e.expected = m.table.expected e.state ∧ d = { c with stack := e.stack } := by
  rcases exists_reaches_of_parse h with hb | ⟨c, hc, hs⟩
  · exact absurd hb pull_ne_rejected
  · refine ⟨c, hc, hs, ?_⟩
    have does := step_does hc.rooted
    generalize m.step c = p at hs does
    cases does with
    | shift _ => exact absurd hs pull_ne_rejected
    | reduce _ _ _ _ _ => cases hs
    | accept _ _ _ _ => cases hs
    | reject lacks =>
        cases hs
        exact ⟨lacks, rfl, rfl, rfl⟩
    | overflow _ => cases hs

/-- For every grammar, every table and every stream of tokens: a syntax error comes from the
step of a configuration that the parse comes by.  Its token is the one ahead there, which
stands behind the tokens that were shifted.  What it expects is what the table expects in its
state.  The fault tells whether the table has no action there or an error, and then the token
is not expected.  The stack stands on the entry that the parse began with.  The state is that
on top of the stack, unless a right-hand side was taken off for a production that the grammar
does not have. -/
theorem tells_situation (h : m.parse steps input = some (.rejected e, d)) :
    ∃ c, m.Reaches input c ∧ m.step c = .ends (.rejected e) d ∧
      e.token = c.token ∧ e.token.map .ok = input[d.stats.shifts]? ∧
      e.expected = m.table.expected e.state ∧
      (m.Rejects c ↔ e.fault = .noAction ∨ ∃ message, e.fault = .reported message) ∧
      (m.Rejects c → e.token.map m.reader.terminal ∉ e.expected) ∧
      m.Rooted e.stack ∧
      (e.state = m.top e.stack ∨ m.Strips c e.fault e.state e.stack) := by
  obtain ⟨c, hc, fails, lacks, token, expected, rfl⟩ := exists_lacks_of_parse h
  refine ⟨c, hc, fails, token, ?_, expected, lacks.rejects_iff, fun rejects => ?_,
    lacks.rooted hc.rooted, lacks.state_eq⟩
  · rw [token]
    exact hc.token_eq
  · rw [token, expected, lacks.state_of_rejects rejects]
    exact rejects.notMem_expected

/-- A bracket that was never opened is met in the state on top, where it is not expected. -/
theorem tells_situation_brackets : ∃ table e d,
    (Grammar.brackets.compile .slr 0 {}).table = .ok table ∧
    (⟨Grammar.brackets, table, Grammar.ones⟩ : Parser Nat Nat Nat Nat).parse 20
      ([0, 1, 1, 0].map .ok : List (Except Empty Nat)) = some (.rejected e, d) ∧
    e.token = some 1 ∧ e.expected = table.expected e.state ∧ some 1 ∉ e.expected ∧
    e.state = (⟨Grammar.brackets, table, Grammar.ones⟩ : Parser Nat Nat Nat Nat).top e.stack := by
  have rejected : (Grammar.brackets.rejection? .slr 0 {} Grammar.ones 20 [0, 1, 1, 0]).map
      (fun (e, d) => (e.fault, d.stats.shifts)) = some (.reported "unexpected token", 2) := by
    decide +kernel
  obtain ⟨⟨e, d⟩, rejected, met⟩ := Option.map_eq_some_iff.mp rejected
  obtain ⟨fault, shifts⟩ := Prod.mk.inj met
  cases ht : (Grammar.brackets.compile .slr 0 {}).table with
  | error _ =>
      rw [Grammar.rejection?, ht] at rejected
      cases rejected
  | ok table =>
      have hp := Grammar.parse_of_rejection? rejected ht
      obtain ⟨c, _, _, _, token, expected, rejects_iff, unexpected, _, state | strips⟩ :=
        tells_situation hp
      · rw [shifts] at token
        obtain ⟨_, hk, ok⟩ := Option.map_eq_some_iff.mp token
        cases ok
        -- the cell that failed is an error
        have missing := unexpected (rejects_iff.mpr (.inr ⟨_, fault⟩))
        rw [hk] at missing
        exact ⟨table, e, d, rfl, hp, hk, expected, missing, state⟩
      · rw [fault] at strips
        cases strips

/-- The start symbol `0` is `1`, which is the terminal `0`. -/
def indirect : Grammar Nat Nat Nat :=
  .ofClauses [
    .rule 0 [([.nonterminal 1], none, Grammar.total)],
    .rule 1 [([.terminal 0], none, Grammar.total)]]

/-- The start symbol `0` is the terminal `0`. -/
def direct : Grammar Nat Nat Nat := .ofClauses [.rule 0 [([.terminal 0], none, Grammar.total)]]

/-- With the table of one grammar and the productions of another, a syntax error can tell a
state that has been taken off the stack. -/
theorem tells_state_taken_off : ∃ table e d,
    (indirect.compile .slr 0 {}).table = .ok table ∧
    (⟨direct, table, Grammar.ones⟩ : Parser Nat Nat Nat Nat).parse 5
      ([0].map .ok : List (Except Empty Nat)) = some (.rejected e, d) ∧
    e.state = 1 ∧ e.stack = [⟨0, none⟩] := by
  have rejected : ((indirect.compile .slr 0 {}).table.toOption.bind fun table =>
      ((⟨direct, table, Grammar.ones⟩ : Parser Nat Nat Nat Nat).parse 5
        ([0].map .ok : List (Except Empty Nat))).bind fun (how, _) =>
          how.rejected?.map fun e => (e.state, e.stack)) = some (1, [⟨0, none⟩]) := by
    decide +kernel
  cases ht : (indirect.compile .slr 0 {}).table with
  | error _ =>
      rw [ht] at rejected
      cases rejected
  | ok table =>
      rw [ht] at rejected
      obtain ⟨_, same, rejected⟩ := Option.bind_eq_some_iff.mp rejected
      cases same
      obtain ⟨⟨how, d⟩, hp, rejected⟩ := Option.bind_eq_some_iff.mp rejected
      obtain ⟨e, he, met⟩ := Option.map_eq_some_iff.mp rejected
      obtain ⟨state, stack⟩ := Prod.mk.inj met
      cases Ending.rejected?_eq_some_iff.mp he
      exact ⟨table, e, d, rfl, hp, state, stack⟩

end Parser

end BottomUp
