import BottomUp.Proofs.AnyTable
import BottomUp.Proofs.BrokenStreams

/-!
# One token ahead

A parser asks its stream for an item before its first step and after each shift, and never
otherwise.  So it has asked once more often than it has shifted, wherever it ends, and the
last item that it has seen is the one behind the tokens that were shifted.  The parse ends
with an error of the stream just if that item is one.

What was not asked for does not matter.  With another stream a configuration is told by
`Configuration.withStream`, and a step does the same with it as long as the streams agree on
what the step asks for (`step_withStream`).  That goes through a whole parse, because the
number of requests never falls (`run_withStream`).  It holds of every table.
-/

namespace BottomUp

variable {K T N V E : Type}

/-- What a step leads to, with another stream. -/
def Progress.withStream (p : Progress K T V E) (input : List (Except E K)) : Progress K T V E :=
  match p with
  | .continues c => .continues (c.withStream input)
  | .ends how c => .ends how (c.withStream input)

/-- The error of the stream that a parse ended with. -/
def Ending.lexical? : Ending K T V E → Option E
  | .lexical e => some e
  | _ => none

theorem Ending.lexical?_eq_some_iff {how : Ending K T V E} {e : E} :
    how.lexical? = some e ↔ how = .lexical e := by
  cases how <;> simp [lexical?]

namespace Parser

variable {input input' : List (Except E K)} {b c d : Configuration K V E} {how : Ending K T V E}
  {steps : Nat} {e : E}

/-- The streams have the same items for so many requests, the end of a stream for one. -/
def SameFor (pulls : Nat) (input input' : List (Except E K)) : Prop :=
  ∀ i < pulls, input'[i]? = input[i]?

theorem SameFor.mono {pulls pulls' : Nat} (h : SameFor pulls' input input')
    (le : pulls ≤ pulls') : SameFor pulls input input' :=
  fun i hi => h i (Nat.lt_of_lt_of_le hi le)

/-! ## Asking for an item -/

@[simp] theorem pulls_pull : (pull c : Progress K T V E).configuration.pulls = c.pulls + 1 := by
  rw [pull]
  split
  · rfl
  · rfl
  · rfl

/-- The next item is all of the stream that matters when it is asked for one. -/
theorem pull_withStream (hb : Placed input b) (same : SameFor (b.pulls + 1) input input') :
    (pull (b.withStream input') : Progress K T V E) = (pull b).withStream input' := by
  have next : (input'.drop b.pulls).head? = b.input.head? := by
    rw [hb, List.head?_drop, List.head?_drop]
    exact same b.pulls (Nat.lt_succ_self _)
  have rest : input'.drop (b.pulls + 1) = (input'.drop b.pulls).tail := List.tail_drop.symm
  obtain ⟨stack, token, items, stats, pulls⟩ := b
  dsimp only at next rest
  simp only [pull, Configuration.withStream]
  cases items with
  | nil =>
      rw [List.head?_nil, List.head?_eq_none_iff] at next
      simp [next, rest, Progress.withStream, Configuration.withStream]
  | cons item items =>
      obtain ⟨items', next⟩ := List.head?_eq_some_iff.mp next
      cases item with
      | ok k => simp [next, rest, Progress.withStream, Configuration.withStream]
      | error e => simp [next, rest, Progress.withStream, Configuration.withStream]

variable [Ordered T] [Ordered N] {m : Parser K T N V}

/-! ## Steps with another stream -/

theorem reduce_withStream_eq (p : Nat) :
    m.reduce p (c.withStream input') = (m.reduce p c).withStream input' := by
  obtain ⟨stack, token, items, stats, pulls⟩ := c
  dsimp only [reduce, Configuration.withStream]
  split
  · rfl
  · split
    · rfl
    · split
      · rfl
      · split <;> rfl

theorem accept_withStream : m.accept (c.withStream input') = (m.accept c).withStream input' := by
  obtain ⟨stack, token, items, stats, pulls⟩ := c
  dsimp only [accept, Configuration.withStream]
  split
  · split
    · rfl
    · split <;> rfl
  · rfl

/-- A step does the same with another stream that has the same items for its requests. -/
theorem step_withStream (hc : Placed input c)
    (same : SameFor (m.step c).configuration.pulls input input') :
    m.step (c.withStream input') = (m.step c).withStream input' := by
  have action : m.action? (c.withStream input') = m.action? c := rfl
  rw [step, action]
  rw [step] at same ⊢
  cases ha : m.action? c with
  | none => rfl
  | some action =>
      cases action with
      | shift j =>
          rw [ha] at same
          exact pull_withStream (b := m.push j c) hc (same.mono (Nat.le_of_eq pulls_pull.symm))
      | reduce p => exact reduce_withStream_eq p
      | accept => exact accept_withStream
      | error message conflicts ahead => rfl

/-! ## Counting requests -/

/-- A step that ends a parse otherwise than by asking changes none of the counts. -/
theorem asks_or_idle (hc : m.Rooted c.stack) (hs : m.step c = .ends how d) :
    (∃ j, m.action? c = some (.shift j) ∧ (pull (m.push j c) : Progress K T V E) = .ends how d) ∨
      d.stats = c.stats ∧ d.pulls = c.pulls ∧ ∀ e, how ≠ .lexical e := by
  have does := step_does hc
  generalize m.step c = p at hs does
  cases does with
  | shift ha => exact .inl ⟨_, ha, hs⟩
  | reduce _ _ _ _ _ => cases hs
  | accept _ _ _ _ =>
      cases hs
      exact .inr ⟨rfl, rfl, nofun⟩
  | reject _ =>
      cases hs
      exact .inr ⟨rfl, rfl, nofun⟩
  | overflow _ =>
      cases hs
      exact .inr ⟨rfl, rfl, nofun⟩

/-- The number of requests does not fall. -/
theorem pulls_le_step (hc : m.Rooted c.stack) : c.pulls ≤ (m.step c).configuration.pulls := by
  have does := step_does hc
  generalize m.step c = p at does
  cases does with
  | shift _ =>
      rw [pulls_pull]
      exact Nat.le_succ _
  | reduce _ _ _ _ _ => exact Nat.le_refl _
  | accept _ _ _ _ => exact Nat.le_refl _
  | reject _ => exact Nat.le_refl _
  | overflow _ => exact Nat.le_refl _

theorem pulls_le_run : ∀ {steps : Nat} {c : Configuration K V E}, m.Reaches input c →
    m.run steps (.continues c) = some (how, d) → c.pulls ≤ d.pulls
  | 0, _, _, h => nomatch h
  | steps + 1, c, hc, h => by
      have le := pulls_le_step (m := m) hc.rooted
      rw [run] at h
      cases hs : m.step c with
      | continues c' =>
          rw [hs] at h le
          exact le.trans (pulls_le_run (hc.next hs) h)
      | ends how' d' =>
          rw [hs, run_ends] at h
          rw [hs] at le
          cases h
          exact le

/-- So a whole parse does not depend on what it does not ask for. -/
theorem run_withStream : ∀ {steps : Nat} {c : Configuration K V E}, m.Reaches input c →
    m.run steps (.continues c) = some (how, d) → SameFor d.pulls input input' →
    m.run steps (.continues (c.withStream input')) = some (how, d.withStream input')
  | 0, _, _, h, _ => nomatch h
  | steps + 1, c, hc, h, same => by
      rw [run] at h ⊢
      cases hs : m.step c with
      | continues c' =>
          rw [hs] at h
          have le := pulls_le_run (hc.next hs) h
          rw [step_withStream hc.placed.1 (same.mono (hs ▸ le)), hs]
          exact run_withStream (hc.next hs) h same
      | ends how' d' =>
          rw [hs, run_ends] at h
          cases h
          rw [step_withStream hc.placed.1 (same.mono (hs ▸ Nat.le_refl _)), hs]
          exact run_ends how steps

theorem parse_withStream (h : m.parse steps input = some (how, d))
    (same : SameFor d.pulls input input') :
    m.parse steps input' = some (how, d.withStream input') := by
  have begins : SameFor (m.begin input : Progress K T V E).configuration.pulls input input' →
      (m.begin input' : Progress K T V E) = (m.begin input).withStream input' :=
    fun same =>
      pull_withStream (b := m.initial input) rfl (same.mono (Nat.le_of_eq pulls_pull.symm))
  rw [parse] at h ⊢
  cases hb : (m.begin input : Progress K T V E) with
  | continues c =>
      rw [hb] at h
      have le := pulls_le_run (.first hb) h
      rw [begins (same.mono (hb ▸ le)), hb]
      exact run_withStream (.first hb) h same
  | ends how' d' =>
      rw [hb, run_ends] at h
      cases h
      rw [begins (same.mono (hb ▸ Nat.le_refl _)), hb]
      exact run_ends how steps

/-! ## What has been asked for -/

/-- All that was asked for are tokens, and they have been counted. -/
structure Seen (input : List (Except E K)) (c : Configuration K V E) : Prop where
  tokens : ∀ item ∈ input.take c.pulls, ∃ k, item = .ok k
  count : c.stats.tokens = (input.take c.pulls).length

omit [Ordered T] [Ordered N] in
theorem Seen.next (hb : Placed input b) (h : Seen input b)
    (hp : (pull b : Progress K T V E) = .continues c) : Seen input c := by
  have split := List.take_add_one (l := input) (i := b.pulls)
  rw [← List.head?_drop, ← hb] at split
  obtain ⟨stack, token, items, stats, pulls⟩ := b
  obtain ⟨tokens, count⟩ := h
  cases items with
  | nil =>
      cases hp
      rw [List.head?_nil, Option.toList_none, List.append_nil] at split
      exact ⟨split ▸ tokens, split ▸ count⟩
  | cons item items =>
      cases item with
      | error e => cases hp
      | ok k =>
          cases hp
          refine ⟨split ▸ fun item hi => ?_, split ▸ ?_⟩
          · rcases List.mem_append.mp hi with hi | hi
            · exact tokens item hi
            · exact ⟨k, List.mem_singleton.mp hi⟩
          · rw [List.length_append]
            exact congrArg (· + 1) count

theorem Reaches.seen (h : m.Reaches input c) : Seen input c := by
  induction h with
  | first hb => exact Seen.next (b := m.initial input) rfl ⟨by simp [initial], rfl⟩ hb
  | @next c d hc hs ih =>
      have does := step_does hc.rooted
      generalize m.step c = p at hs does
      cases does with
      | @shift j _ =>
          have pushed : Seen input (m.push j c) := ⟨ih.tokens, ih.count⟩
          exact pushed.next (b := m.push j c) hc.placed.1 hs
      | reduce _ _ _ _ _ =>
          cases hs
          exact ⟨ih.tokens, ih.count⟩
      | accept _ _ _ _ => cases hs
      | reject _ => cases hs
      | overflow _ => cases hs

theorem Asks.seen (h : m.Asks input b) : Seen input b := by
  cases h with
  | first => exact ⟨by simp [initial], rfl⟩
  | shift hc _ => exact ⟨hc.seen.tokens, hc.seen.count⟩

/-- The token ahead is the item behind the tokens that were shifted. -/
theorem Reaches.token_eq (h : m.Reaches input c) : c.token.map .ok = input[c.stats.shifts]? := by
  have after {b d : Configuration K V E} (hb : m.Asks input b)
      (hp : (pull b : Progress K T V E) = .continues d) :
      d.token.map .ok = input[d.stats.shifts]? := by
    have asked := asked_of_pull hp
    rw [asked.token, asked.shifts, hb.placed.1, List.head?_drop, hb.placed.2]
  induction h with
  | first hb => exact after .first hb
  | next hc hs ih =>
      rcases shifts_or_reduces hs with ⟨j, ha, hp⟩ | ⟨p, _, hr⟩
      · exact after (.shift hc ha) hp
      · obtain ⟨_, _, token, shifts, _⟩ := reduce_withStream hr
        rw [token, shifts, ih]

omit [Ordered T] [Ordered N] in
/-- Asking for an item that is an error counts as a request and as nothing else. -/
theorem counts_of_pull_ends (hp : (pull b : Progress K T V E) = .ends how d) :
    d.stats = b.stats ∧ d.pulls = b.pulls + 1 := by
  rw [pull] at hp
  split at hp
  · cases hp
  · cases hp
  · cases hp
    exact ⟨rfl, rfl⟩

/-- The last item that was asked for is this error, and all others were shifted. -/
structure BreaksOff (input : List (Except E K)) (e : E) (d : Configuration K V E) : Prop where
  pulls : d.pulls = d.stats.shifts + 1
  error : input[d.stats.shifts]? = some (.error e)
  tokens : ∀ i < d.stats.shifts, ∃ k, input[i]? = some (.ok k)
  count : d.stats.tokens = d.stats.shifts

theorem Asks.breaksOff (hb : m.Asks input b) (hp : (pull b : Progress K T V E) = .ends how d) :
    ∃ e, how = .lexical e ∧ BreaksOff input e d := by
  obtain ⟨e, rfl, next⟩ := exists_lexical_of_pull hp
  obtain ⟨placed, shifted⟩ := hb.placed
  obtain ⟨stats, pulls⟩ := counts_of_pull_ends hp
  obtain ⟨tokens, count⟩ := hb.seen
  rw [placed, List.head?_drop] at next
  have inside : b.pulls ≤ input.length := Nat.le_of_lt (List.getElem?_eq_some_iff.mp next).1
  rw [List.length_take_of_le inside] at count
  refine ⟨e, rfl, ?_, ?_, ?_, ?_⟩
  · rw [pulls, stats, shifted]
  · rw [stats, ← shifted, next]
  · rw [stats, ← shifted]
    intro i hi
    have read := List.getElem?_take_of_lt (l := input) hi
    rw [← read, List.getElem?_eq_getElem (by rw [List.length_take_of_le inside]; exact hi)]
    exact (tokens _ (List.getElem_mem _)).imp fun _ h => congrArg some h
  · rw [stats, count, shifted]

/-! ## The result -/

/-- For every table, a parse asks once more often than it shifts, and what it ends with depends
only on what it asks for: with every stream that has the same items there, it ends in the same
way after as many steps and requests.  It ends with an error of the stream if and only if the
last item it asks for is that error.  Then all items before are tokens, and just these were
taken and shifted. -/
theorem reads_one_ahead (h : m.parse steps input = some (how, d)) :
    (∀ k input', d.pulls ≤ k → (∀ i < k, input'[i]? = input[i]?) →
      m.parse steps input' = some (how, d.withStream input')) ∧
    d.pulls = d.stats.shifts + 1 ∧
    (∀ e, how = .lexical e ↔ input[d.stats.shifts]? = some (.error e)) ∧
    ∀ e, how = .lexical e → d.stats.tokens = d.stats.shifts ∧
      ∀ i < d.stats.shifts, ∃ k, input[i]? = some (.ok k) := by
  refine ⟨fun k input' le same => parse_withStream h (SameFor.mono same le), ?_⟩
  have asks {b : Configuration K V E} (hb : m.Asks input b)
      (hp : (pull b : Progress K T V E) = .ends how d) :
      d.pulls = d.stats.shifts + 1 ∧
        (∀ e, how = .lexical e ↔ input[d.stats.shifts]? = some (.error e)) ∧
        ∀ e, how = .lexical e → d.stats.tokens = d.stats.shifts ∧
          ∀ i < d.stats.shifts, ∃ k, input[i]? = some (.ok k) := by
    obtain ⟨e, rfl, breaks⟩ := hb.breaksOff hp
    refine ⟨breaks.pulls, fun e' => ?_, fun _ _ => ⟨breaks.count, breaks.tokens⟩⟩
    rw [breaks.error]
    simp
  rcases exists_reaches_of_parse h with hb | ⟨c, hc, hs⟩
  · exact asks .first hb
  · rcases asks_or_idle hc.rooted hs with ⟨j, ha, hp⟩ | ⟨stats, pulls, other⟩
    · exact asks (.shift hc ha) hp
    · -- the token ahead stands where an error would
      refine ⟨by rw [pulls, stats, hc.placed.2], fun e => ?_, fun e he => absurd he (other e)⟩
      rw [stats, ← hc.token_eq]
      refine ⟨fun he => absurd he (other e), fun he => ?_⟩
      obtain ⟨_, _, ok⟩ := Option.map_eq_some_iff.mp he
      cases ok

/-- After an opened bracket the stream breaks off.  What would have come next was not asked
for. -/
theorem reads_one_ahead_brackets : ∃ table d,
    (Grammar.brackets.compile .slr 0 {}).table = .ok table ∧
    (⟨Grammar.brackets, table, Grammar.ones⟩ : Parser Nat Nat Nat Nat).parse 20
      ([.ok 0, .error 9] : List (Except Nat Nat)) = some (.lexical 9, d) ∧
    (⟨Grammar.brackets, table, Grammar.ones⟩ : Parser Nat Nat Nat Nat).parse 20
      [.ok 0, .error 9, .ok 1] = some (.lexical 9, d.withStream [.ok 0, .error 9, .ok 1]) ∧
    d.pulls = 2 ∧ d.stats.tokens = 1 := by
  have broken : ((Grammar.brackets.compile .slr 0 {}).table.toOption.bind fun table =>
      ((⟨Grammar.brackets, table, Grammar.ones⟩ : Parser Nat Nat Nat Nat).parse 20
        ([.ok 0, .error 9] : List (Except Nat Nat))).map
          fun (how, d) => (how.lexical?, d.stats.shifts)) = some (some 9, 1) := by decide +kernel
  cases ht : (Grammar.brackets.compile .slr 0 {}).table with
  | error e =>
      rw [ht] at broken
      cases broken
  | ok table =>
      rw [ht] at broken
      obtain ⟨⟨how, d⟩, hp, ended⟩ := Option.map_eq_some_iff.mp broken
      obtain ⟨lexical, shifts⟩ := Prod.mk.inj ended
      cases Ending.lexical?_eq_some_iff.mp lexical
      obtain ⟨lazy, pulls, _, read⟩ := reads_one_ahead hp
      obtain ⟨tokens, _⟩ := read 9 rfl
      rw [shifts] at pulls tokens
      exact ⟨table, d, rfl, hp, lazy 2 _ (Nat.le_of_eq pulls) (by decide), pulls, tokens⟩

end Parser

end BottomUp
