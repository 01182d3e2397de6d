import BottomUp.Proofs.Detection

/-!
# Streams that break off

An error may stand in a stream for a token.  A parse that ends with such an error has taken it
from its stream (`mem_of_parse_lexical`).  Before that only tokens were taken
(`HasRead.take_pulls`), so up to there the parse is that of any stream of tokens that begins
alike.  If some stream of tokens that begins alike is accepted, nothing is wrong with what was
read, and the parse must end with the error of the stream (`lexical_of_accepted`).  The table
may settle conflicts as it likes for that.
-/

namespace BottomUp

variable {K T N V E : Type} [Ordered T] [Ordered N]

namespace Parser

variable {m : Parser K T N V} {o : Outline T N} {start steps steps' : Nat}
  {input : List (Except E K)} {b c d : Configuration K V E} {v w rest : List K} {e : E}

/-! ## Accepted streams -/

/-- What is accepted is the frontier of a tree of the start production. -/
theorem exists_tree_of_parse (ho : o.Lawful m.grammar start)
    (hd : o.Drives m.grammar start m.table) {value : V}
    (h : m.parse steps input = some (.accepted value, c)) :
    ∃ children, (Tree.node start children).IsOf m.grammar m.reader ∧
      input = (Tree.frontiers children).map .ok := by
  obtain ⟨_, _, hrun, hh, _⟩ := parse_shows h
  have finishes := run_sound ho hd (begin_sound hd input) hrun
  cases hh with
  | accepted _ =>
      cases finishes with
      | accepted tree input_eq _ => exact ⟨_, tree, input_eq⟩

/-! ## Errors of the stream -/

theorem reduce_ne_lexical {p : Nat} : m.reduce p c ≠ .ends (.lexical e) d := by
  intro h
  rw [reduce] at h
  split at h
  · cases h
  · split at h
    · cases h
    · dsimp only at h
      split at h
      · cases h
      · split at h <;> cases h

theorem accept_ne_lexical : m.accept c ≠ .ends (.lexical e) d := by
  intro h
  rw [accept] at h
  split at h
  · split at h
    · cases h
    · split at h <;> cases h
  · cases h

/-- Where a parse ends with an error of the stream, it has asked for a token. -/
theorem exists_asks_of_lexical (h : m.parse steps input = some (.lexical e, d)) :
    ∃ b, m.Asks input b ∧ pull b = (.ends (.lexical e) d : Progress K T V E) := by
  rcases exists_reaches_of_parse h with hb | ⟨c, hr, hs⟩
  · exact ⟨_, .first, hb⟩
  · rw [step] at hs
    cases ha : m.action? c with
    | none =>
        rw [ha] at hs
        cases hs
    | some action =>
        rw [ha] at hs
        cases action with
        | shift j => exact ⟨_, .shift hr ha, hs⟩
        | reduce p => exact absurd hs reduce_ne_lexical
        | accept => exact absurd hs accept_ne_lexical
        | error message conflicts ahead => cases hs

/-- The error was in the stream. -/
theorem mem_of_parse_lexical (h : m.parse steps input = some (.lexical e, d)) :
    .error e ∈ input := by
  obtain ⟨b, hb, hp⟩ := exists_asks_of_lexical h
  obtain ⟨_, he, head⟩ := exists_lexical_of_pull hp
  cases he
  rw [hb.placed.1] at head
  exact List.mem_of_mem_drop (List.mem_of_mem_head? head)

/-- All that a parse has taken from its stream are tokens. -/
theorem HasRead.take_pulls (hw : m.HasRead o input c w) (hr : m.Reaches input c) :
    input.take c.pulls = (w ++ c.token.toList).map .ok := by
  have pulls : c.pulls = w.length + 1 := by rw [hr.placed.2, hw.shifts]
  rw [pulls, hw.input_eq]
  cases token : c.token with
  | none => simp [hw.exhausted token]
  | some k =>
      have length : ((w ++ [k]).map .ok : List (Except E K)).length = w.length + 1 := by simp
      rw [Option.toList_some, ← length, List.take_left]

/-! ## Streams that break off -/

/-- Tokens, and an error behind them. -/
def broken (w : List K) (e : E) : List (Except E K) := w.map .ok ++ [.error e]

omit [Ordered T] [Ordered N] in
theorem error_mem_broken {e' : E} : (.error e' : Except E K) ∈ broken w e ↔ e' = e := by
  simp [broken]

/-- A parse takes tokens only, so it does not come to the error. -/
theorem Reaches.pulls_le (ho : o.Lawful m.grammar start) (hd : o.Drives m.grammar start m.table)
    (hr : m.Reaches (broken w e) c) : c.pulls ≤ w.length := by
  by_contra beyond
  obtain ⟨v, hv⟩ := hr.exists_hasRead ho hd
  have all : (broken w e).length ≤ c.pulls := by
    rw [broken, List.length_append, List.length_map, List.length_singleton]
    omega
  have error : (.error e : Except E K) ∈ broken w e := error_mem_broken.mpr rfl
  rw [← List.take_of_length_le all, hv.take_pulls hr] at error
  simp at error

/-- Where an accepted stream goes on, another one breaks off.  Its parse ends with the error. -/
theorem lexical_of_accepted (ho : o.Lawful m.grammar start)
    (hd : o.Drives m.grammar start m.table) {value : V}
    (accepted : m.parse steps ((w ++ rest).map .ok : List (Except E K)) = some (.accepted value, c))
    {how : Ending K T V E} (h : m.parse steps' (broken w e) = some (how, d)) :
    how = .lexical e := by
  rcases ending_cases ho hd h with ⟨_, rfl⟩ | ⟨_, rfl⟩ | ⟨e', rfl⟩
  · obtain ⟨_, _, tokens⟩ := exists_tree_of_parse ho hd h
    have error : (.error e : Except E K) ∈ broken w e := error_mem_broken.mpr rfl
    rw [tokens] at error
    simp at error
  · obtain ⟨hr, rejects, _⟩ := exists_rejects_of_parse ho hd h
    have same : ((w ++ rest).map .ok : List (Except E K)).take d.pulls =
        (broken w e).take d.pulls := by
      have within : d.pulls ≤ (w.map .ok : List (Except E K)).length := by
        simpa using hr.pulls_le ho hd
      rw [broken, List.map_append, List.take_append_of_le_length within,
        List.take_append_of_le_length within]
    -- the accepted parse comes by the rejected configuration too
    have again : m.Rejects (d.withStream ((w ++ rest).map .ok)) := rejects
    obtain ⟨_, hs⟩ := again.exists_step
    obtain ⟨_, rejected⟩ := (hr.withStream same).exists_parse hs
    cases parse_unique accepted rejected
  · rw [error_mem_broken.mp (mem_of_parse_lexical h)]

end Parser

end BottomUp
