import BottomUp.Proofs.Streaming

/-!
# Tables of any kind

A table need not be made from a grammar: its states, productions and lengths may be any
numbers.  A parse with it still stands on the bottom entry that it began with
(`Parser.Rooted`), at every configuration that it comes by and where it ends.

For this it has to be said what a step can do at all (`Parser.Does`).  A reduction takes as
many entries as the table says only if there are that many above the bottom, and accepting
leaves the bottom alone.  Whatever is missing, be it an action, a production, the height of
the stack or a goto, is reported as a syntax error (`Parser.Lacks`).

There is one exception.  Before it accepts, a parser adds one to the length of the start
production, and that may not be a word (`Parser.Exceeds`).  A reduction compares the length
itself with the height of the stack, so it has no such case.  A parse overflows if and only if
it comes by such a configuration (`survives_tables`), and there is a table with which it does
(`overflow_at_limit`).
-/

namespace BottomUp

variable {K T N V E : Type}

/-- The configuration that a step leads to or leaves behind. -/
def Progress.configuration : Progress K T V E → Configuration K V E
  | .continues c => c
  | .ends _ c => c

namespace Parser

theorem configuration_pull_stack {c : Configuration K V E} :
    (pull c : Progress K T V E).configuration.stack = c.stack := by
  rw [pull]
  split
  · rfl
  · rfl
  · rfl

theorem pull_ne_overflow {c d : Configuration K V E} :
    (pull c : Progress K T V E) ≠ .ends .overflow d := by
  intro h
  obtain ⟨_, he, _⟩ := exists_lexical_of_pull h
  cases he

variable [Ordered T] [Ordered N]

/-! ## What a step can do -/

/-- The stack stands on the entry that a parse begins with. -/
def Rooted (m : Parser K T N V) (stack : List (Entry V)) : Prop :=
  ∃ above, stack = above ++ [⟨m.table.start, none⟩]

/-- So many entries on top of a stack leave a stack that stands on the first entry. -/
structure Splits (m : Parser K T N V) (stack : List (Entry V)) (len : Nat)
    (popped below : List (Entry V)) : Prop where
  eq : stack = popped ++ below
  length : popped.length = len
  rooted : m.Rooted below

/-- What a configuration lacks for a step, the state in which that is noticed, and the stack
that is left. -/
inductive Lacks (m : Parser K T N V) (c : Configuration K V E) :
    SyntaxFault → Nat → List (Entry V) → Prop
  /-- The table has no action. -/
  | action : m.action? c = none → Lacks m c .noAction (m.top c.stack) c.stack
  /-- The action is an error. -/
  | reported {message : String} {conflicts : List (Action T)} {ahead : Lookahead T} :
      m.action? c = some (.error message conflicts ahead) →
      Lacks m c (.reported message) (m.top c.stack) c.stack
  /-- The table does not list the production to be reduced. -/
  | info {p : Nat} : m.action? c = some (.reduce p) → m.table.productions[p]? = none →
      Lacks m c .unknownProduction (m.top c.stack) c.stack
  /-- There are not enough entries above the bottom. -/
  | height {p : Nat} {info : ProductionInfo N} : m.action? c = some (.reduce p) →
      m.table.productions[p]? = some info → c.stack.length ≤ info.len →
      Lacks m c .stackUnderflow (m.top c.stack) c.stack
  /-- The grammar does not have the production to be reduced. -/
  | production {p : Nat} {info : ProductionInfo N} {popped below : List (Entry V)} :
      m.action? c = some (.reduce p) → m.table.productions[p]? = some info →
      m.Splits c.stack info.len popped below → m.grammar.productions[p]? = none →
      Lacks m c .unknownProduction (m.top c.stack) below
  /-- The table has no state to enter after the reduction. -/
  | goto {p : Nat} {info : ProductionInfo N} {production : Production T N V}
      {popped below : List (Entry V)} :
      m.action? c = some (.reduce p) → m.table.productions[p]? = some info →
      m.grammar.productions[p]? = some production →
      m.Splits c.stack info.len popped below → m.table.goto? (m.top below) info.lhs = none →
      Lacks m c .missingGoto (m.top below) below
  /-- The table or the grammar does not have the start production. -/
  | start : m.action? c = some .accept →
      m.table.productions[m.table.startProduction]? = none ∨
        m.grammar.productions[m.table.startProduction]? = none →
      Lacks m c .unknownProduction (m.top c.stack) c.stack
  /-- There is something else on the stack than the start production. -/
  | form {info : ProductionInfo N} : m.action? c = some .accept →
      m.table.productions[m.table.startProduction]? = some info →
      c.stack.length ≠ info.len + 1 → Lacks m c .malformedStack (m.top c.stack) c.stack

/-- The input is to be accepted by a production with the greatest of all lengths. -/
structure Exceeds (m : Parser K T N V) (c : Configuration K V E) : Prop where
  action : m.action? c = some .accept
  length : ∃ info, m.table.productions[m.table.startProduction]? = some info ∧
    info.len + 1 = wordLimit
  production : ∃ production, m.grammar.productions[m.table.startProduction]? = some production
  height : c.stack.length ≠ wordLimit

/-- What a step does. -/
inductive Does (m : Parser K T N V) (c : Configuration K V E) : Progress K T V E → Prop
  /-- The token is put on the stack, and the next one is asked for. -/
  | shift {state : Nat} : m.action? c = some (.shift state) → Does m c (pull (m.push state c))
  /-- A right-hand side above the bottom gives way to its left-hand side. -/
  | reduce {p next : Nat} {info : ProductionInfo N} {production : Production T N V}
      {popped below : List (Entry V)} :
      m.action? c = some (.reduce p) → m.table.productions[p]? = some info →
      m.grammar.productions[p]? = some production → m.Splits c.stack info.len popped below →
      m.table.goto? (m.top below) info.lhs = some next →
      Does m c (.continues { c with
        stack := ⟨next, some (production.act (values popped))⟩ :: below
        stats := { c.stats with reductions := c.stats.reductions + 1 } })
  /-- All that is above the bottom is the right-hand side of the start production. -/
  | accept {info : ProductionInfo N} {production : Production T N V} {popped : List (Entry V)} :
      m.action? c = some .accept →
      m.table.productions[m.table.startProduction]? = some info →
      m.grammar.productions[m.table.startProduction]? = some production →
      m.Splits c.stack info.len popped [⟨m.table.start, none⟩] →
      Does m c (.ends (.accepted (production.act (values popped)))
        { c with stack := [⟨m.table.start, none⟩] })
  /-- Something is missing. -/
  | reject {fault : SyntaxFault} {state : Nat} {stack : List (Entry V)} :
      m.Lacks c fault state stack → Does m c (m.reject fault state { c with stack := stack })
  /-- One more than a length is not a word. -/
  | overflow : m.Exceeds c → Does m c (.ends .overflow c)

variable {m : Parser K T N V} {c d : Configuration K V E} {stack : List (Entry V)} {len : Nat}
  {input : List (Except E K)}

/-- What is above the bottom can be taken off. -/
theorem Rooted.splits (h : m.Rooted stack) (hl : len < stack.length) :
    m.Splits stack len (stack.take len) (stack.drop len) := by
  obtain ⟨above, rfl⟩ := h
  rw [List.length_append, List.length_singleton] at hl
  refine ⟨(List.take_append_drop len _).symm, ?_, above.drop len, ?_⟩
  · rw [List.length_take, List.length_append, List.length_singleton]
    omega
  · rw [List.drop_append_of_le_length (by omega)]

theorem reduce_does {p : Nat} (h : m.Rooted c.stack) (ha : m.action? c = some (.reduce p)) :
    m.Does c (m.reduce p c) := by
  rw [Parser.reduce]
  cases hi : m.table.productions[p]? with
  | none => exact .reject (.info ha hi)
  | some info =>
      simp only []
      split
      · rename_i low
        exact .reject (.height ha hi low)
      · rename_i enough
        have splits := h.splits (Nat.lt_of_not_le enough)
        cases hp : m.grammar.productions[p]? with
        | none => exact .reject (.production ha hi splits hp)
        | some production =>
            cases hn : m.table.goto? (m.top (c.stack.drop info.len)) info.lhs with
            | none => exact .reject (.goto ha hi hp splits hn)
            | some next => exact .reduce ha hi hp splits hn

theorem accept_does (h : m.Rooted c.stack) (ha : m.action? c = some .accept) :
    m.Does c (m.accept c) := by
  rw [Parser.accept]
  split
  · rename_i info production hi hp
    split
    · rename_i all
      have enough : info.len < c.stack.length := by omega
      have splits := h.splits enough
      obtain ⟨above, hs⟩ := h
      have bottom : c.stack.drop info.len = [⟨m.table.start, none⟩] := by
        rw [hs, List.length_append, List.length_singleton] at all
        rw [hs, List.drop_left' (by omega)]
      rw [bottom] at splits ⊢
      exact .accept ha hi hp splits
    · rename_i different
      split
      · rename_i limit
        exact .overflow ⟨ha, ⟨info, hi, limit⟩, ⟨production, hp⟩, limit ▸ different⟩
      · exact .reject (.form ha hi different)
  · rename_i missing
    refine .reject (.start ha ?_)
    cases hi : m.table.productions[m.table.startProduction]? with
    | none => exact .inl rfl
    | some info =>
        cases hp : m.grammar.productions[m.table.startProduction]? with
        | none => exact .inr rfl
        | some production => exact absurd hp (missing info production hi)

/-- A stack that stands on the first entry is all that a step needs. -/
theorem step_does (h : m.Rooted c.stack) : m.Does c (m.step c) := by
  rw [step]
  cases ha : m.action? c with
  | none => exact .reject (.action ha)
  | some action =>
      cases action with
      | shift state => exact .shift ha
      | reduce p => exact reduce_does h ha
      | accept => exact accept_does h ha
      | error message conflicts ahead => exact .reject (.reported ha)

/-! ## What a run keeps -/

theorem Lacks.rooted {fault : SyntaxFault} {state : Nat} (h : m.Rooted c.stack)
    (hl : m.Lacks c fault state stack) : m.Rooted stack := by
  cases hl with
  | action _ => exact h
  | reported _ => exact h
  | info _ _ => exact h
  | height _ _ _ => exact h
  | production _ _ splits _ => exact splits.rooted
  | goto _ _ _ splits _ => exact splits.rooted
  | start _ _ => exact h
  | form _ _ _ => exact h

/-- Another entry on top does not matter to the bottom. -/
theorem Rooted.cons (h : m.Rooted stack) (e : Entry V) : m.Rooted (e :: stack) := by
  obtain ⟨above, rfl⟩ := h
  exact ⟨e :: above, rfl⟩

/-- A step leaves the bottom of the stack where it is, also if it ends the parse. -/
theorem Does.rooted {p : Progress K T V E} (h : m.Rooted c.stack) (hd : m.Does c p) :
    m.Rooted p.configuration.stack := by
  cases hd with
  | shift _ =>
      rw [configuration_pull_stack]
      exact h.cons _
  | reduce _ _ _ splits _ => exact splits.rooted.cons _
  | accept _ _ _ _ => exact ⟨[], rfl⟩
  | reject lacks => exact lacks.rooted h
  | overflow _ => exact h

theorem rooted_begin (m : Parser K T N V) (input : List (Except E K)) :
    m.Rooted (m.begin input).configuration.stack := by
  have stack : (m.begin input).configuration.stack = [⟨m.table.start, none⟩] :=
    configuration_pull_stack
  exact ⟨[], stack⟩

theorem Reaches.rooted (h : m.Reaches input c) : m.Rooted c.stack := by
  induction h with
  | first hb =>
      have := m.rooted_begin input
      rwa [hb] at this
  | next _ hs ih =>
      have := (step_does ih).rooted ih
      rwa [hs] at this

theorem rooted_of_parse {steps : Nat} {how : Ending K T V E}
    (h : m.parse steps input = some (how, d)) : m.Rooted d.stack := by
  rcases exists_reaches_of_parse h with hb | ⟨c, hc, hs⟩
  · have := m.rooted_begin input
    rwa [hb] at this
  · have := (step_does hc.rooted).rooted hc.rooted
    rwa [hs] at this

/-! ## Overflow -/

theorem step_of_exceeds (h : m.Exceeds c) : m.step c = .ends .overflow c := by
  obtain ⟨info, hi, limit⟩ := h.length
  obtain ⟨production, hp⟩ := h.production
  have different : c.stack.length ≠ info.len + 1 := limit ▸ h.height
  rw [step, h.action]
  simp only [accept, hi, hp]
  rw [if_neg different, if_pos limit]

theorem exceeds_of_step (h : m.Rooted c.stack) (hs : m.step c = .ends .overflow d) :
    m.Exceeds c := by
  have does := step_does h
  rw [hs] at does
  generalize hp : Progress.ends Ending.overflow d = p at does
  cases does with
  | shift _ => exact absurd hp.symm pull_ne_overflow
  | reduce _ _ _ _ _ => cases hp
  | accept _ _ _ _ => cases hp
  | reject _ => cases hp
  | overflow exceeds => exact exceeds

/-- For every grammar, every table and every stream of tokens: a parse stands on the entry
that it began with wherever it comes by and where it ends.  Each step is one that is told by
`Does`: no entry is taken off that is not there, and what is missing is a syntax error.  The
parse overflows if and only if it comes by a configuration in which the input is to be
accepted by a production with the greatest of all lengths. -/
theorem survives_tables (m : Parser K T N V) (input : List (Except E K)) :
    (∀ c, m.Reaches input c → m.Rooted c.stack ∧ m.Does c (m.step c)) ∧
    (∀ steps how d, m.parse steps input = some (how, d) → m.Rooted d.stack) ∧
    ((∃ steps d, m.parse steps input = some (.overflow, d)) ↔
      ∃ c, m.Reaches input c ∧ m.Exceeds c) := by
  refine ⟨fun c hc => ⟨hc.rooted, step_does hc.rooted⟩, fun _ _ _ => rooted_of_parse, ?_, ?_⟩
  · rintro ⟨steps, d, h⟩
    rcases exists_reaches_of_parse h with hb | ⟨c, hc, hs⟩
    · exact absurd hb pull_ne_overflow
    · exact ⟨c, hc, exceeds_of_step hc.rooted hs⟩
  · rintro ⟨c, hc, exceeds⟩
    obtain ⟨steps, h⟩ := hc.exists_parse (step_of_exceeds exceeds)
    exact ⟨steps, c, h⟩

/-- Only empty input, which one state accepts by a production of a given length. -/
def acceptsBy (len : Nat) : Parser Nat Nat Nat Nat where
  grammar := .ofClauses [.rule 0 [([], none, Grammar.total)]]
  table := ⟨[⟨.accept, .empty, .empty⟩], 0, 0, [⟨0, len⟩], []⟩
  reader := ⟨id, id⟩

/-- A parse can overflow although all lengths are words: one more than the greatest is none. -/
theorem overflow_at_limit : (acceptsBy (wordLimit - 1)).parse 1 ([] : List (Except Empty Nat)) =
    some (.overflow, ⟨[⟨0, none⟩], none, [], {}, 1⟩) :=
  rfl

end Parser

end BottomUp
