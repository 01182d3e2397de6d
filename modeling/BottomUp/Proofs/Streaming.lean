import BottomUp.Proofs.Safety
import BottomUp.Proofs.Simulation

/-!
# A parser sees what it has asked for

A parser *asks* its stream for a token first of all, and then after each shift
(`Parser.Asks`).  Where a parse comes by a configuration, either the token ahead has just
been asked for or a reduction was the last step (`Reaches.asks_or_reduces`).

What stands in the stream behind the token ahead cannot have mattered so far.  So the parse
of every stream that begins alike comes by the same configuration (`Reaches.withStream`).
Nothing here depends on where the table comes from.
-/

namespace BottomUp

variable {K T N V E : Type}

namespace Configuration

/-- The configuration with another stream, which was asked for as many tokens. -/
def withStream (c : Configuration K V E) (input : List (Except E K)) : Configuration K V E :=
  { c with input := input.drop c.pulls }

@[simp] theorem stack_withStream (c : Configuration K V E) (input : List (Except E K)) :
    (c.withStream input).stack = c.stack :=
  rfl

/-- The stream was asked for one more token and did not break off. -/
structure Asked (c d : Configuration K V E) : Prop where
  stack : d.stack = c.stack
  shifts : d.stats.shifts = c.stats.shifts
  pulls : d.pulls = c.pulls + 1
  token : d.token.map .ok = c.input.head?
  input : d.input = c.input.tail

end Configuration

namespace Parser

/-! ## Asking for a token -/

variable {b c d : Configuration K V E} {input input' : List (Except E K)}

theorem asked_of_pull (h : (pull b : Progress K T V E) = .continues c) : b.Asked c := by
  obtain ⟨stack, token, rest, stats, pulls⟩ := b
  cases rest with
  | nil =>
      cases h
      exact ⟨rfl, rfl, rfl, rfl, rfl⟩
  | cons item rest =>
      cases item with
      | ok k =>
          cases h
          exact ⟨rfl, rfl, rfl, rfl, rfl⟩
      | error e => cases h

/-- Asking for a token ends a parse only with an error that stands next in the stream. -/
theorem exists_lexical_of_pull {how : Ending K T V E} (h : pull b = .ends how c) :
    ∃ e, how = .lexical e ∧ b.input.head? = some (.error e) := by
  rw [pull] at h
  split at h
  · cases h
  · cases h
  · rename_i hi
    cases h
    exact ⟨_, rfl, congrArg List.head? hi⟩

theorem pull_ne_rejected {e : SyntaxError K T V} : pull b ≠ .ends (.rejected e) c := by
  intro h
  obtain ⟨_, he, _⟩ := exists_lexical_of_pull h
  cases he

theorem pull_of_head?_eq {rest rest' : List (Except E K)}
    (h : (pull { b with input := rest } : Progress K T V E) = .continues c)
    (same : rest'.head? = rest.head?) :
    (pull { b with input := rest' } : Progress K T V E) =
      .continues { c with input := rest'.tail } := by
  cases rest with
  | nil =>
      obtain rfl : rest' = [] := List.head?_eq_none_iff.mp same
      cases h
      rfl
  | cons item rest =>
      obtain ⟨rest', rfl⟩ := List.head?_eq_some_iff.mp same
      cases item with
      | ok k =>
          cases h
          rfl
      | error e => cases h

/-- What is left of the stream is what was not asked for. -/
def Placed (input : List (Except E K)) (c : Configuration K V E) : Prop :=
  c.input = input.drop c.pulls

theorem Placed.next (hb : Placed input b)
    (hp : (pull b : Progress K T V E) = .continues c) : Placed input c := by
  have asked := asked_of_pull hp
  rw [Placed, asked.input, hb, asked.pulls, List.tail_drop]

/-- Only the next token of the stream matters when it is asked for one. -/
theorem Placed.pull_withStream (hb : Placed input b)
    (hp : (pull b : Progress K T V E) = .continues c)
    (same : input'.take c.pulls = input.take c.pulls) :
    (pull (b.withStream input') : Progress K T V E) = .continues (c.withStream input') := by
  have pulls : c.pulls = b.pulls + 1 := (asked_of_pull hp).pulls
  have next : (input'.drop b.pulls).head? = b.input.head? := by
    have same := congrArg (fun items => items[b.pulls]?) same
    simp only [pulls, List.getElem?_take_of_succ] at same
    rw [List.head?_drop, same, ← List.head?_drop, hb]
  refine (pull_of_head?_eq hp next).trans ?_
  rw [List.tail_drop, ← pulls]
  rfl

/-! ## Steps and the stream -/

variable [Ordered T] [Ordered N] {m : Parser K T N V}

/-- The configuration in which the first token is asked for. -/
def initial (m : Parser K T N V) (input : List (Except E K)) : Configuration K V E :=
  ⟨[⟨m.table.start, none⟩], none, input, {}, 0⟩

/-- The token is put on the stack under a new state. -/
def push (m : Parser K T N V) (state : Nat) (c : Configuration K V E) : Configuration K V E :=
  { c with
    stack := ⟨state, c.token.map m.reader.value⟩ :: c.stack
    stats := { c.stats with shifts := c.stats.shifts + 1 } }

/-- A reduction has nothing to do with the stream. -/
theorem reduce_withStream {p : Nat} (h : m.reduce p c = .continues d) :
    d.pulls = c.pulls ∧ d.input = c.input ∧ d.token = c.token ∧
      d.stats.shifts = c.stats.shifts ∧
      ∀ input, m.reduce p (c.withStream input) = .continues (d.withStream input) := by
  simp only [reduce, Configuration.stack_withStream] at h ⊢
  cases hi : m.table.productions[p]? with
  | none =>
      rw [hi] at h
      cases h
  | some info =>
      simp only [hi] at h ⊢
      split at h
      · cases h
      · rename_i enough
        cases hp : m.grammar.productions[p]? with
        | none =>
            rw [hp] at h
            cases h
        | some production =>
            simp only [hp] at h ⊢
            cases hn : m.table.goto? (m.top (c.stack.drop info.len)) info.lhs with
            | none =>
                rw [hn] at h
                cases h
            | some next =>
                rw [hn] at h
                cases h
                exact ⟨rfl, rfl, rfl, rfl, fun _ => if_neg enough⟩

/-- A step that goes on is a shift or a reduction. -/
theorem shifts_or_reduces (h : m.step c = .continues d) :
    (∃ j, m.action? c = some (.shift j) ∧ (pull (m.push j c) : Progress K T V E) = .continues d) ∨
      ∃ p, m.action? c = some (.reduce p) ∧ m.reduce p c = .continues d := by
  obtain ⟨action, _, ha, hm⟩ := exists_move_of_step h
  rw [step, ha] at h
  cases action with
  | shift j => exact .inl ⟨j, ha, h⟩
  | reduce p => exact .inr ⟨p, ha, h⟩
  | accept => exact absurd h not_continues_of_accept
  | error _ _ _ => cases hm

/-- A parse asks its stream for a token: at first, and after a shift. -/
inductive Asks (m : Parser K T N V) (input : List (Except E K)) : Configuration K V E → Prop
  | first : Asks m input (m.initial input)
  | shift {c : Configuration K V E} {j : Nat} :
      m.Reaches input c → m.action? c = some (.shift j) → Asks m input (m.push j c)

theorem Asks.reaches (h : m.Asks input b) (hp : (pull b : Progress K T V E) = .continues c) :
    m.Reaches input c := by
  cases h with
  | first => exact .first hp
  | @shift d j hd ha =>
      refine .next hd ?_
      rw [step, ha]
      exact hp

/-- The token ahead has just been asked for, or a reduction was the last step. -/
theorem Reaches.asks_or_reduces (h : m.Reaches input c) :
    (∃ b, m.Asks input b ∧ (pull b : Progress K T V E) = .continues c) ∨
      ∃ d p, m.Reaches input d ∧ m.action? d = some (.reduce p) ∧ m.reduce p d = .continues c := by
  cases h with
  | first hb => exact .inl ⟨_, .first, hb⟩
  | @next d _ hd hs =>
      rcases shifts_or_reduces hs with ⟨j, ha, hp⟩ | ⟨p, ha, hr⟩
      · exact .inl ⟨_, .shift hd ha, hp⟩
      · exact .inr ⟨d, p, hd, ha, hr⟩

/-! ## Every stream that begins alike -/

/-- A parse has asked once more often than it has shifted. -/
theorem Reaches.placed (h : m.Reaches input c) :
    Placed input c ∧ c.pulls = c.stats.shifts + 1 := by
  have after {b d : Configuration K V E} (hp : (pull b : Progress K T V E) = .continues d)
      (hb : Placed input b) (pulls : b.pulls = b.stats.shifts) :
      Placed input d ∧ d.pulls = d.stats.shifts + 1 := by
    have asked := asked_of_pull hp
    exact ⟨hb.next hp, by rw [asked.pulls, asked.shifts, pulls]⟩
  induction h with
  | first hb => exact after hb rfl rfl
  | next _ hs ih =>
      obtain ⟨hc, pulls⟩ := ih
      rcases shifts_or_reduces hs with ⟨j, _, hp⟩ | ⟨p, _, hr⟩
      · exact after hp hc pulls
      · obtain ⟨hpulls, hinput, _, hshifts, _⟩ := reduce_withStream hr
        exact ⟨by rw [Placed, hinput, hc, hpulls], by rw [hpulls, hshifts, pulls]⟩

theorem Asks.placed (h : m.Asks input b) : Placed input b ∧ b.pulls = b.stats.shifts := by
  cases h with
  | first => exact ⟨rfl, rfl⟩
  | shift hc _ => exact hc.placed

/-- The parse of a stream that begins with all that was asked for comes by the same
configuration. -/
theorem Reaches.withStream (h : m.Reaches input c)
    (same : input'.take c.pulls = input.take c.pulls) : m.Reaches input' (c.withStream input') := by
  induction h with
  | first hb => exact .first (Placed.pull_withStream (b := m.initial input) rfl hb same)
  | @next c d hc hs ih =>
      have action : m.action? (c.withStream input') = m.action? c := rfl
      rcases shifts_or_reduces hs with ⟨j, ha, hp⟩ | ⟨p, ha, hr⟩
      · have earlier : input'.take c.pulls = input.take c.pulls := by
          have pulls : d.pulls = c.pulls + 1 := (asked_of_pull hp).pulls
          rw [pulls] at same
          simpa [List.take_take] using congrArg (List.take c.pulls) same
        refine .next (ih earlier) ?_
        rw [step, action, ha]
        exact Placed.pull_withStream (b := m.push j c) hc.placed.1 hp same
      · obtain ⟨hpulls, _, _, _, all⟩ := reduce_withStream hr
        rw [hpulls] at same
        refine .next (ih same) ?_
        rw [step, action, ha]
        exact all input'

/-- A stream that begins with all that was asked for is asked in the same way. -/
theorem Asks.withStream (h : m.Asks input b) (same : input'.take b.pulls = input.take b.pulls) :
    m.Asks input' (b.withStream input') := by
  cases h with
  | first => exact .first
  | @shift c j hc ha => exact .shift (j := j) (hc.withStream same) ha

/-! ## How a parse ends -/

@[simp] theorem run_ends (how : Ending K T V E) : ∀ steps : Nat,
    m.run steps (.ends how c) = some (how, c)
  | 0 => rfl
  | _ + 1 => rfl

/-- A parse ends at once, or with a step from a configuration that it comes by. -/
theorem exists_reaches_of_parse {steps : Nat} {how : Ending K T V E}
    (h : m.parse steps input = some (how, d)) :
    m.begin input = .ends how d ∨ ∃ c, m.Reaches input c ∧ m.step c = .ends how d := by
  have from_reached : ∀ {steps : Nat} {c : Configuration K V E}, m.Reaches input c →
      m.run steps (.continues c) = some (how, d) →
      ∃ c, m.Reaches input c ∧ m.step c = .ends how d := by
    intro steps
    induction steps with
    | zero => exact fun _ h => nomatch h
    | succ steps ih =>
        intro c hc h
        rw [run] at h
        cases hs : m.step c with
        | continues c' =>
            rw [hs] at h
            exact ih (hc.next hs) h
        | ends how' d' =>
            rw [hs, run_ends] at h
            cases h
            exact ⟨c, hc, hs⟩
  rw [parse] at h
  cases hb : m.begin input with
  | continues c =>
      rw [hb] at h
      exact .inr (from_reached (.first hb) h)
  | ends how' d' =>
      rw [hb, run_ends] at h
      cases h
      exact .inl rfl

/-- A step that ends does end the parse. -/
theorem Reaches.exists_parse (h : m.Reaches input c) {how : Ending K T V E}
    (he : m.step c = .ends how d) : ∃ steps, m.parse steps input = some (how, d) := by
  have goes : ∃ c₀, m.begin input = .continues c₀ ∧ m.Goes c₀ c := by
    clear he
    induction h with
    | first hb => exact ⟨_, hb, .refl⟩
    | next _ hs ih =>
        obtain ⟨c₀, hb, hg⟩ := ih
        exact ⟨c₀, hb, hg.trans (.step hs .refl)⟩
  obtain ⟨c₀, hb, hg⟩ := goes
  obtain ⟨steps, hr⟩ := hg.exists_run he
  refine ⟨steps, ?_⟩
  rw [parse, hb]
  exact hr

end Parser

end BottomUp
