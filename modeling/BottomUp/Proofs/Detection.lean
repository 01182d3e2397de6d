import BottomUp.Proofs.Streaming
import BottomUp.Proofs.Termination

/-!
# Syntax errors are met at the right token

The string along which the stack of a parser has grown derives what was shifted
(`Parser.HasRead`), and a valid item shows how that goes on.  So what was shifted begins
something that the start symbol derives.

No configuration that the parse of a sentence comes by is rejected.  Up to the token ahead the
parse of a stream is the parse of whatever else begins alike.  So where a parser rejects, no
sentence begins with what was shifted and the token ahead (`Follows.not_rejects`).  It does not
matter that an SLR table may reduce before a wrong token, for the token ahead stays the same.

There may be no tokens for the terminals of a sentence.  So the other parse is that of a parser
that reads terminals (`Parser.onTerminals`), which shadows the parser at hand.
-/

namespace BottomUp

variable {K K' T N V E : Type}

/-! ## What can follow -/

namespace Grammar

variable {g : Grammar T N V} {start : N}

/-- Some sentence begins with the terminals and the lookahead.  At the end of the input they
are a sentence. -/
def Admits (g : Grammar T N V) (start : N) (w : List T) (a : Lookahead T) : Prop :=
  ∃ z : List T, (a = none → z = []) ∧ g.IsSentence start (w ++ a.toList ++ z)

theorem admits_some {w : List T} {t : T} :
    g.Admits start w (some t) ↔ ∃ z, g.IsSentence start (w ++ t :: z) := by
  simp [Admits]

theorem admits_none {w : List T} : g.Admits start w none ↔ g.IsSentence start w := by
  simp [Admits]

/-- The start symbol derives what a valid item has read with what it has not and what the
chain leaves to the right. -/
theorem Valid.derives {γ right : List (Symbol T N)} {p d : Nat} (h : g.Valid start γ p d right) :
    g.Derives [.nonterminal start] (γ ++ ((g.rhs p).drop d ++ right)) := by
  obtain ⟨production, left, hp, -, hc, rfl⟩ := h
  have reads := (Derives.of_production (List.mem_of_getElem? hp)).between left right
  rw [List.append_assoc left [_] right, List.singleton_append] at reads
  have whole := hc.derives.trans reads
  rw [← List.take_append_drop d production.rhs] at whole
  rw [rhs_of_getElem? hp]
  simpa only [List.append_assoc] using whole

end Grammar

theorem Outline.Lawful.exists_holds [Ordered T] [Ordered N] {o : Outline T N} {g : Grammar T N V}
    {start i : Nat} (ho : o.Lawful g start) {γ : List (Symbol T N)} (hγ : o.Spells γ i) :
    ∃ p d, o.holds i p d := by
  cases hγ with
  | nil => exact ⟨start, 0, ho.holds_of_expects ho.expects_zero⟩
  | concat _ hn =>
      obtain ⟨_, p, d, h⟩ := ho.entered hn
      exact ⟨p, d + 1, h⟩

namespace Parser

variable [Ordered T] [Ordered N] {m : Parser K T N V} {o : Outline T N} {policy : Policy T}
  {start : Nat} {sym : N} {input : List (Except E K)} {c d : Configuration K V E} {w : List K}

/-! ## Rejections -/

/-- The table has at most an error for the configuration. -/
def Rejects (m : Parser K T N V) (c : Configuration K V E) : Prop :=
  ∀ action, m.action? c = some action → action.isError = true

theorem Rejects.exists_step (h : m.Rejects c) :
    ∃ fault, m.step c = m.reject fault (m.top c.stack) c := by
  rw [step]
  cases ha : m.action? c with
  | none => exact ⟨_, rfl⟩
  | some action =>
      cases action with
      | error message conflicts ahead => exact ⟨_, rfl⟩
      | shift j => cases h _ ha
      | reduce p => cases h _ ha
      | accept => cases h _ ha

theorem Rejects.move?_eq_none (h : m.Rejects c) : (m.action? c).bind Action.move? = none := by
  cases ha : m.action? c with
  | none => rfl
  | some action =>
      cases action with
      | error _ _ _ => rfl
      | shift j => cases h _ ha
      | reduce p => cases h _ ha
      | accept => cases h _ ha

theorem fault_of_reduce {p : Nat} {e : SyntaxError K T V}
    (h : m.reduce p c = .ends (.rejected e) d) : e.fault.message ∈ SyntaxFault.internal := by
  rw [reduce] at h
  split at h
  · cases h
    simp [SyntaxFault.internal]
  · split at h
    · cases h
      simp [SyntaxFault.internal]
    · dsimp only at h
      split at h
      · cases h
        simp [SyntaxFault.internal]
      · split at h
        · cases h
          simp [SyntaxFault.internal]
        · cases h

theorem fault_of_accept {e : SyntaxError K T V} (h : m.accept c = .ends (.rejected e) d) :
    e.fault.message ∈ SyntaxFault.internal := by
  rw [accept] at h
  split at h
  · split at h
    · cases h
    · split at h
      · cases h
      · cases h
        simp [SyntaxFault.internal]
  · cases h
    simp [SyntaxFault.internal]

/-- A step that ends in a syntax error, but not in a fault that only an ill-made table can
cause, is a rejection by the table. -/
theorem of_step_rejected {e : SyntaxError K T V} (hs : m.step c = .ends (.rejected e) d)
    (fault : e.fault.message ∉ SyntaxFault.internal) :
    m.Rejects c ∧ d = c ∧
      e = ⟨e.fault, m.top c.stack, c.token, m.table.expected (m.top c.stack), c.stack⟩ := by
  rw [step] at hs
  cases ha : m.action? c with
  | none =>
      rw [ha] at hs
      cases hs
      refine ⟨fun _ h => ?_, rfl, rfl⟩
      cases ha.symm.trans h
  | some action =>
      rw [ha] at hs
      cases action with
      | error message conflicts ahead =>
          cases hs
          refine ⟨fun _ h => ?_, rfl, rfl⟩
          cases ha.symm.trans h
          rfl
      | shift j => exact absurd hs pull_ne_rejected
      | reduce p => exact absurd (fault_of_reduce hs) fault
      | accept => exact absurd (fault_of_accept hs) fault

/-- A table that an automaton drives causes no other faults. -/
theorem fault_of_parse (ho : o.Lawful m.grammar start) (hd : o.Drives m.grammar start m.table)
    {steps : Nat} {e : SyntaxError K T V} (h : m.parse steps input = some (.rejected e, c)) :
    e.fault.message ∉ SyntaxFault.internal := by
  obtain ⟨_, _, hrun, hh, _⟩ := parse_shows h
  have harmless := (run_sound ho hd (begin_sound hd input) hrun).harmless hd hh
  exact (harmless.rejects rfl).2.1

/-- Where a parse ends in a syntax error, the table rejects a configuration that the parse
comes by. -/
theorem exists_rejects_of_parse (ho : o.Lawful m.grammar start)
    (hd : o.Drives m.grammar start m.table) {steps : Nat} {e : SyntaxError K T V}
    (h : m.parse steps input = some (.rejected e, c)) :
    m.Reaches input c ∧ m.Rejects c ∧
      e = ⟨e.fault, m.top c.stack, c.token, m.table.expected (m.top c.stack), c.stack⟩ := by
  rcases exists_reaches_of_parse h with hb | ⟨d, hr, hs⟩
  · exact absurd hb pull_ne_rejected
  · obtain ⟨rejects, rfl, he⟩ := of_step_rejected hs (fault_of_parse ho hd h)
    exact ⟨hr, rejects, he⟩

/-! ## What has been read -/

/-- The stack stands for a string that derives the terminals of what was shifted, and that,
the token ahead and the rest of the stream make up the input. -/
structure HasRead (m : Parser K T N V) (o : Outline T N) (input : List (Except E K))
    (c : Configuration K V E) (w : List K) : Prop where
  path : ∃ γ, o.Spells γ (m.top c.stack) ∧
    m.grammar.Derives γ (w.map fun k => .terminal (m.reader.terminal k))
  input_eq : input = (w ++ c.token.toList).map .ok ++ c.input
  shifts : c.stats.shifts = w.length
  exhausted : c.token = none → c.input = []

theorem append_toList_inj {v w : List K} {k? : Option K} {rest : List (Except E K)}
    (h : (v ++ k?.toList).map .ok ++ rest = (w ++ k?.toList).map .ok ++ rest) : v = w :=
  List.append_cancel_right (List.map_injective_iff.mpr (fun _ _ => Except.ok.inj)
    (List.append_cancel_right h))

theorem Reaches.exists_hasRead (ho : o.Lawful m.grammar start)
    (hd : o.Drives m.grammar start m.table) (h : m.Reaches input c) :
    ∃ w, m.HasRead o input c w := by
  obtain ⟨ct, hs, hk⟩ := h.keeps ho hd
  obtain ⟨i, hi⟩ := hk.grows
  obtain ⟨γ, hγ, trees⟩ := hi.exists_spells
  have top : m.top c.stack = i := (top_shows hs.stack).symm.trans (hi.top_eq _)
  refine ⟨Tree.frontiers (values ct.stack), ⟨γ, top ▸ hγ, ?_⟩, ?_, ?_, ?_⟩
  · exact Tree.derives_frontiers trees.symbols fun t ht => (trees.trees t ht).derives_frontier
  · rw [← hs.token, ← hs.input]
    exact hk.input_eq
  · rw [← hs.stats]
    exact hk.shifts
  · rw [← hs.token, ← hs.input]
    exact hk.exhausted

/-- What was shifted begins something that the start symbol derives. -/
theorem HasRead.exists_derives (hw : m.HasRead o input c w) (ho : o.Lawful m.grammar start)
    (valid : ∀ {γ i p d}, o.Spells γ i → o.holds i p d →
      ∃ right, m.grammar.Valid sym γ p d right) :
    ∃ right, m.grammar.Derives [.nonterminal sym]
      (w.map (fun k => .terminal (m.reader.terminal k)) ++ right) := by
  obtain ⟨γ, hγ, derives⟩ := hw.path
  obtain ⟨p, d, holds⟩ := ho.exists_holds hγ
  obtain ⟨right, hv⟩ := valid hγ holds
  exact ⟨_, hv.derives.trans (derives.append .refl)⟩

/-! ## Sentences are not rejected -/

/-- No configuration that the parse of a sentence comes by is rejected. -/
theorem Follows.not_rejects_of_sentence (h : m.Follows o policy start)
    (hs : m.grammar.Starts sym start) {s : List K}
    (sentence : m.grammar.IsSentence sym (s.map m.reader.terminal))
    (hr : m.Reaches (s.map .ok) c) : ¬ m.Rejects c := by
  intro rejects
  obtain ⟨fault, hstep⟩ := rejects.exists_step
  obtain ⟨steps, rejected⟩ := hr.exists_parse hstep
  rw [Grammar.IsSentence, List.map_map] at sentence
  obtain ⟨ts, trees, frontier⟩ := Tree.exists_of_derives sentence (Tree.areOf_leaves s)
  obtain ⟨t, rfl, root⟩ := List.map_eq_singleton_iff.mp trees.symbols
  have tree := trees.trees t List.mem_cons_self
  rw [Tree.frontiers_leaves, Tree.frontiers, Tree.frontiers, List.append_nil] at frontier
  obtain ⟨v, value⟩ := tree.exists_value?
  obtain ⟨_, _, accepted⟩ := (h.accepts_iff hs).mpr ⟨t, tree, root, congrArg _ frontier.symm, value⟩
  cases parse_unique rejected accepted

/-- Nor is one that is met before a token with which a sentence goes on. -/
theorem Follows.not_rejects_of_rest (h : m.Follows o policy start)
    (hs : m.grammar.Starts sym start) (hr : m.Reaches input c) (hw : m.HasRead o input c w)
    {rest : List K} (ends : c.token = none → rest = [])
    (sentence : m.grammar.IsSentence sym ((w ++ c.token.toList ++ rest).map m.reader.terminal)) :
    ¬ m.Rejects c := by
  have pulls : c.pulls = w.length + 1 := by rw [hr.placed.2, hw.shifts]
  have same : ((w ++ c.token.toList ++ rest).map .ok : List (Except E K)).take c.pulls =
      input.take c.pulls := by
    rw [pulls, hw.input_eq, List.map_append]
    cases token : c.token with
    | none => rw [ends token, hw.exhausted token, List.map_nil]
    | some k =>
        have length : ((w ++ [k]).map .ok : List (Except E K)).length = w.length + 1 := by simp
        rw [Option.toList_some, ← length, List.take_left, List.take_left]
  have sure := h.not_rejects_of_sentence hs sentence (hr.withStream same)
  exact fun rejects => sure rejects

/-! ## Reading terminals -/

/-- The parser with terminals for tokens. -/
def onTerminals (m : Parser K T N V) (v : V) : Parser T T N V :=
  ⟨m.grammar, m.table, ⟨id, fun _ => v⟩⟩

theorem Follows.onTerminals (h : m.Follows o policy start) (v : V) :
    (m.onTerminals v).Follows o policy start :=
  ⟨h.lawful, h.drives, h.permits, h.action⟩

theorem Follows.shadows (h : m.Follows o policy start) (v : V) :
    (m.onTerminals v).Shadows m o o policy start :=
  ⟨rfl, h.lawful, h.drives, .refl o, h.onTerminals v⟩

theorem stream_onTerminals (v : V) (items : List (Except E T)) :
    (m.onTerminals v).reader.stream items = items := by
  have same : Except.map (id : T → T) = (id : Except E T → Except E T) := by
    funext item
    cases item <;> rfl
  rw [Reader.stream]
  show items.map (Except.map id) = items
  rw [same, List.map_id]

/-- The parser that reads terminals comes by like configurations. -/
theorem Shadows.exists_reaches {m' : Parser K' T N V} {o' : Outline T N}
    (h : m'.Shadows m o' o policy start) {input' : List (Except E K')}
    (hi : m.reader.stream input = m'.reader.stream input') (hr : m.Reaches input c) :
    ∃ c', m'.Reaches input' c' ∧ c.Alike o o' m.reader m'.reader c' := by
  induction hr with
  | first hb =>
      have both := h.begin_alike hi
      rw [hb] at both
      generalize hb' : m'.begin input' = p' at both
      cases both with
      | continues hc => exact ⟨_, .first hb', hc⟩
  | next _ hs ih =>
      obtain ⟨c', hr', hc⟩ := ih
      obtain ⟨d', hs', hd⟩ := h.step hc hs
      exact ⟨d', hr'.next hs', hd⟩

section

variable {v : V} {c' : Configuration T V E}

theorem top_of_alike (hc : c.Alike o o m.reader (m.onTerminals v).reader c') :
    (m.onTerminals v).top c'.stack = m.top c.stack := by
  obtain ⟨γ, i, j, hi, hj⟩ := hc.path
  obtain rfl := hi.spells.unique hj.spells
  rw [hi.top_eq, hj.top_eq]

theorem token_of_alike (hc : c.Alike o o m.reader (m.onTerminals v).reader c') :
    c'.token = c.token.map m.reader.terminal := by
  rw [hc.token]
  exact Option.map_id_apply.symm

theorem rejects_of_alike (hc : c.Alike o o m.reader (m.onTerminals v).reader c') :
    (m.onTerminals v).Rejects c' ↔ m.Rejects c := by
  have action : (m.onTerminals v).action? c' = m.action? c := by
    rw [action?, action?, top_of_alike hc, hc.token]
    rfl
  rw [Rejects, Rejects, action]

theorem HasRead.eq_map_of_alike {w' : List T} (hw : m.HasRead o input c w)
    (hc : c.Alike o o m.reader (m.onTerminals v).reader c')
    (hw' : (m.onTerminals v).HasRead o (m.reader.stream input) c' w') :
    w' = w.map m.reader.terminal := by
  have rest : c'.input = m.reader.stream c.input := by rw [hc.input, stream_onTerminals]
  refine append_toList_inj (hw'.input_eq.symm.trans ?_)
  rw [token_of_alike hc, rest, hw.input_eq, Option.toList_map, ← List.map_append, Reader.stream,
    List.map_append, List.map_map, List.map_map]
  rfl

end

/-- A parser that reads terminals comes by a like configuration, in which it has read the
terminals of what was read. -/
theorem Follows.exists_onTerminals (h : m.Follows o policy start)
    (hs : m.grammar.Starts sym start) (hr : m.Reaches input c) (hw : m.HasRead o input c w) :
    ∃ v c', (m.onTerminals v).Reaches (m.reader.stream input) c' ∧
      c.Alike o o m.reader (m.onTerminals v).reader c' ∧
      (m.onTerminals v).HasRead o (m.reader.stream input) c' (w.map m.reader.terminal) := by
  -- any value will do for the tokens
  obtain ⟨production, _, _⟩ := hs.exists_production
  have follows := h.onTerminals (production.act [])
  obtain ⟨c', hr', hc⟩ := (h.shadows (production.act [])).exists_reaches
    (stream_onTerminals _ (m.reader.stream input)).symm hr
  obtain ⟨w', hw'⟩ := hr'.exists_hasRead follows.lawful follows.drives
  obtain rfl := hw.eq_map_of_alike hc hw'
  exact ⟨_, c', hr', hc, hw'⟩

/-- What a sentence goes on with is not rejected. -/
theorem Follows.not_rejects (h : m.Follows o policy start) (hs : m.grammar.Starts sym start)
    (hr : m.Reaches input c) (hw : m.HasRead o input c w)
    (admits : m.grammar.Admits sym (w.map m.reader.terminal) (c.token.map m.reader.terminal)) :
    ¬ m.Rejects c := by
  obtain ⟨v, c', hr', hc, hw'⟩ := h.exists_onTerminals hs hr hw
  obtain ⟨rest, ends, sentence⟩ := admits
  rw [← token_of_alike hc] at ends sentence
  rw [← List.map_id (_ ++ rest)] at sentence
  rw [← rejects_of_alike hc]
  exact (h.onTerminals v).not_rejects_of_rest hs hr' hw' ends sentence

end Parser

/-! ## Syntax errors -/

namespace Grammar

variable [Ordered T] [Ordered N] {g : Grammar T N V} {start : N} {p : Nat}

/-- For every grammar that is fit for a table, both methods and every policy that vetoes
nothing: if no cell has two candidates, there is a table, and where a parser with it ends in a
syntax error, the tokens that it shifted begin something that the start symbol derives.  An
error at a token is at the token behind them, and no sentence begins with them and it.  An
error at the end of the input is behind the whole stream, and that is not a sentence. -/
theorem rejects_first_wrong_token (hv : g.validate start = .ok p) (method : Method)
    {policy : Policy T} (permits : ∀ q a, policy.reduceOn q a = true)
    (single : (g.outline method start p).Deterministic g policy p) :
    ∃ table, (g.compile method start policy).table = .ok table ∧
      ∀ (r : Reader K T V) (input : List (Except E K)) (steps : Nat) (e : SyntaxError K T V)
        (c : Configuration K V E),
        (⟨g, table, r⟩ : Parser K T N V).parse steps input = some (.rejected e, c) →
        ∃ w : List K, w.length = c.stats.shifts ∧
          (∃ right, g.Derives [.nonterminal start]
            (w.map (fun k => .terminal (r.terminal k)) ++ right)) ∧
          (∀ k, e.token = some k → (∃ rest, input = w.map .ok ++ .ok k :: rest) ∧
            ∀ z, ¬ g.IsSentence start (w.map r.terminal ++ r.terminal k :: z)) ∧
          (e.token = none → input = w.map .ok ∧ ¬ g.IsSentence start (w.map r.terminal)) := by
  have hs := starts_of_validate hv
  have ho := lawful_outline hs method
  obtain ⟨table, _, ht, resolved, _⟩ := exists_table_of_deterministic hv single
  refine ⟨table, ht, fun r input steps e c hp => ?_⟩
  have follows : (⟨g, table, r⟩ : Parser K T N V).Follows (g.outline method start p) policy p :=
    ⟨ho, resolved.drives, permits, resolved.action_eq ho single⟩
  obtain ⟨hr, rejects, he⟩ := Parser.exists_rejects_of_parse ho follows.drives hp
  obtain ⟨w, hw⟩ := hr.exists_hasRead ho follows.drives
  have refused : ¬ g.Admits start (w.map r.terminal) (c.token.map r.terminal) :=
    fun admits => follows.not_rejects hs hr hw admits rejects
  have token : e.token = c.token := by rw [he]
  rw [token]
  refine ⟨w, hw.shifts.symm, hw.exists_derives ho (exists_valid hs), fun k hk => ?_, fun hk => ?_⟩
  · have input_eq := hw.input_eq
    rw [hk, Option.toList_some, List.map_append, List.append_assoc] at input_eq
    rw [hk, Option.map_some, admits_some] at refused
    exact ⟨⟨c.input, input_eq⟩, fun z sentence => refused ⟨z, sentence⟩⟩
  · have input_eq := hw.input_eq
    rw [hk, hw.exhausted hk, Option.toList_none, List.append_nil, List.append_nil] at input_eq
    rw [hk, Option.map_none, admits_none] at refused
    exact ⟨input_eq, refused⟩

/-- Brackets: a sentence `0` is `1`, which is nothing, or another `1` between the brackets `0`
and `1`. -/
def brackets : Grammar Nat Nat Nat :=
  .ofClauses [
    .rule 0 [([.nonterminal 1], none, total)],
    .rule 1 [([.terminal 0, .nonterminal 1, .terminal 1], none, total), ([], none, total)]]

/-- The syntax error in some tokens by the table of a grammar, and the configuration that is
left, if there is one. -/
def rejection? (g : Grammar T N V) (method : Method) (start : N) (policy : Policy T)
    (r : Reader K T V) (steps : Nat) (tokens : List K) :
    Option (SyntaxError K T V × Configuration K V Empty) :=
  match (g.compile method start policy).table with
  | .error _ => none
  | .ok table =>
      match (⟨g, table, r⟩ : Parser K T N V).parse steps (tokens.map .ok) with
      | some (.rejected e, c) => some (e, c)
      | _ => none

theorem parse_of_rejection? {method : Method} {policy : Policy T} {r : Reader K T V} {steps : Nat}
    {tokens : List K} {e : SyntaxError K T V} {c : Configuration K V Empty}
    (h : g.rejection? method start policy r steps tokens = some (e, c)) {table : ParseTable T N}
    (ht : (g.compile method start policy).table = .ok table) :
    (⟨g, table, r⟩ : Parser K T N V).parse steps (tokens.map .ok) = some (.rejected e, c) := by
  rw [rejection?, ht] at h
  dsimp only at h
  split at h
  · rename_i hp
    cases h
    exact hp
  · cases h

/-- A bracket that was never opened is where the error is. -/
theorem rejects_first_wrong_token_brackets : brackets.validate 0 = .ok 0 ∧
    (brackets.outline .slr 0 0).Deterministic brackets {} 0 ∧
    ∃ table e c, (brackets.compile .slr 0 {}).table = .ok table ∧
      (⟨brackets, table, ones⟩ : Parser Nat Nat Nat Nat).parse 20
        ([0, 1, 1, 0].map .ok : List (Except Empty Nat)) = some (.rejected e, c) ∧
      c.stats.shifts = 2 ∧ e.token = some 1 ∧ ∀ z, ¬ brackets.IsSentence 0 (0 :: 1 :: 1 :: z) := by
  have hv : brackets.validate 0 = .ok 0 := by rfl
  have single : brackets.isDeterministic .slr 0 {} 0 = true := by decide +kernel
  have deterministic := deterministic_of_isDeterministic hv single
  obtain ⟨table, ht, wrong⟩ := rejects_first_wrong_token (K := Nat) (E := Empty) hv .slr
    (fun _ _ => rfl) deterministic
  have rejected : (brackets.rejection? .slr 0 {} ones 20 [0, 1, 1, 0]).map
      (fun (e, c) => (c.stats.shifts, e.token)) = some (2, some 1) := by decide +kernel
  obtain ⟨⟨e, c⟩, rejected, met⟩ := Option.map_eq_some_iff.mp rejected
  obtain ⟨shifts, token⟩ := Prod.mk.inj met
  have hp := parse_of_rejection? rejected ht
  obtain ⟨w, length, _, at_token, _⟩ := wrong ones _ _ e c hp
  obtain ⟨⟨rest, input_eq⟩, refused⟩ := at_token 1 token
  have read : w = [0, 1] := by
    rw [shifts] at length
    match w, length with
    | [a, b], _ =>
        cases input_eq
        rfl
  rw [read] at refused
  exact ⟨hv, deterministic, table, e, c, ht, hp, shifts, token, refused⟩

end Grammar

end BottomUp
