import BottomUp.Proofs.Detection

/-!
# What an LR(1) parser expects

In a productive grammar whatever begins what the start symbol derives begins a sentence
(`Productive.admits`).  An LR(1) item is expected before a lookahead only if that leads what a
chain leaves to the right.  So whatever an LR(1) table does about a lookahead, some sentence
goes on with it (`Foresees.admits`).

A parser that rejects has therefore not reduced since it was last given a token, for such a
reduction would have been made before a token with which no sentence goes on.  So it has just
asked for the token, and would be in the same state had it been given another one
(`Foresees.exists_asks`).  So the lookaheads on which the table proceeds in that state are just
those with which a sentence goes on (`Foresees.proceeds_iff`).
-/

namespace BottomUp

variable {K T N V E : Type}

/-! ## What a table expects -/

section

variable [Ordered T] [Ordered N]

/-- The terminals for which a row has an action that is not an error. -/
def Row.next (row : Row T N) : SortedSet T :=
  .ofList ((row.actions.toList.filter fun entry => !entry.2.isError).map Prod.fst)

theorem Row.mem_next {row : Row T N} {t : T} :
    t ∈ row.next ↔ ∃ action, row.actions.get? t = some action ∧ action.isError = false := by
  simp [next, SortedMap.get?_eq_some_iff]

theorem Row.toList_next (row : Row T N) :
    row.next.toList = (row.actions.toList.filter fun entry => !entry.2.isError).map Prod.fst := by
  refine eq_of_mem_iff (fun h => Ordered.Before.asymm h) (SortedSet.sorted _) ?_ (by simp [next])
  exact List.pairwise_map.mpr (row.actions.sorted.filter _)

/-- The table has an action for the state and the lookahead, and that is not an error. -/
def ParseTable.Proceeds (table : ParseTable T N) (i : Nat) (a : Lookahead T) : Prop :=
  ∃ action, table.action? i a = some action ∧ action.isError = false

/-- The expected lookaheads are those on which the table proceeds, in ascending order with the
end of the input behind the terminals. -/
theorem ParseTable.exists_expected (table : ParseTable T N) (i : Nat) :
    ∃ next : SortedSet T, (∀ t, t ∈ next ↔ table.Proceeds i (some t)) ∧
      (table.Proceeds i none ∧ table.expected i = next.toList.map some ++ [none] ∨
        ¬ table.Proceeds i none ∧ table.expected i = next.toList.map some) := by
  cases hrow : table.rows[i]? with
  | none =>
      have nothing (a : Lookahead T) : ¬ table.Proceeds i a := by simp [Proceeds, action?, hrow]
      exact ⟨.empty, by simp [nothing], .inr ⟨nothing none, by rw [expected, hrow]; rfl⟩⟩
  | some row =>
      have listed : table.expected i =
          row.next.toList.map some ++ if row.atEnd.isError then [] else [none] := by
        rw [expected, hrow, Row.toList_next, List.map_map]
        rfl
      refine ⟨row.next, fun t => ?_, ?_⟩
      · rw [Row.mem_next]
        simp [Proceeds, action?, hrow]
      · rw [listed]
        cases herror : row.atEnd.isError with
        | true => exact .inr (by simp [Proceeds, action?, hrow, herror])
        | false => exact .inl (by simp [Proceeds, action?, hrow, herror])

end

/-! ## Productive grammars -/

namespace Grammar

variable [Ordered N] {g : Grammar T N V} {start : N}

/-- The start symbol reaches the nonterminals of what it derives. -/
theorem Derives.generated {symbols : List (Symbol T N)}
    (h : g.Derives [.nonterminal start] symbols) {n : N} (hn : .nonterminal n ∈ symbols) :
    Generated g.successors [start] n := by
  induction h generalizing n with
  | refl =>
      cases List.mem_singleton.mp hn
      exact .seed List.mem_cons_self
  | tail _ step ih =>
      cases step with
      | @apply production left right hp =>
          rcases List.mem_append.mp hn with hn | hn
          · rcases List.mem_append.mp hn with hn | hn
            · exact ih (List.mem_append_left _ hn)
            · have rewritten := ih (List.mem_append_right left List.mem_cons_self)
              exact rewritten.step (mem_successors.mpr ⟨production, hp, rfl, hn⟩)
          · exact ih (List.mem_append_right left (List.mem_cons_of_mem _ hn))

/-- What begins something that the start symbol derives begins a sentence. -/
theorem Productive.admits [Ordered T] (productive : g.Productive start)
    (hs : start ∈ g.nonterminals) {w : List T} {a : Lookahead T} (rest : List (Symbol T N))
    (ends : a = none → rest = [])
    (h : g.Derives [.nonterminal start] ((w ++ a.toList).map .terminal ++ rest)) :
    g.Admits start w a := by
  obtain ⟨z, hz⟩ := exists_derives_terminals fun n hn =>
    productive n ((mem_reachable hs).mpr (h.generated (List.mem_append_right _ hn)))
  refine ⟨z, fun ha => ?_, ?_⟩
  · rw [ends ha] at hz
    exact List.map_eq_nil_iff.mp (Derives.eq_of_terminals (w := []) hz)
  · rw [IsSentence, List.map_append]
    exact h.trans (Derives.refl.append hz)

/-- A lookahead with which an LR(1) item is expected leads what a chain leaves to the right. -/
theorem exists_valid_leads [Ordered T] {p i q d : Nat} (hs : g.Starts start p)
    {γ : List (Symbol T N)} {a : Lookahead T} (hγ : (g.outline .lr1 start p).Spells γ i)
    (h : (g.outline .lr1 start p).expects i q d a) :
    ∃ right, g.Valid start γ q d right ∧ g.Leads right a := by
  obtain ⟨item, hi, rfl, rfl, ha⟩ := Machine.expects_outline.mp h
  rw [List.mem_singleton.mp ha]
  exact Machine.allValid_of_follow? hs LookaheadRule.confined_lr1 LookaheadRule.tracks_lr1 γ
    (Outline.spells_outline.mp hγ) item hi

end Grammar

namespace Parser

variable [Ordered T] [Ordered N] {m : Parser K T N V} {o : Outline T N} {policy : Policy T}
  {start : Nat} {sym : N} {input : List (Except E K)} {b c d : Configuration K V E}

/-! ## Lookaheads that can follow -/

/-- A parser of a productive grammar, whose automaton expects an item only before lookaheads
that lead what a chain leaves to the right. -/
structure Foresees (m : Parser K T N V) (o : Outline T N) (policy : Policy T) (sym : N)
    (start : Nat) : Prop where
  follows : m.Follows o policy start
  starts : m.grammar.Starts sym start
  valid {γ : List (Symbol T N)} {i p d : Nat} : o.Spells γ i → o.holds i p d →
    ∃ right, m.grammar.Valid sym γ p d right
  leads {γ : List (Symbol T N)} {i p d : Nat} {a : Lookahead T} : o.Spells γ i →
    o.expects i p d a → ∃ right, m.grammar.Valid sym γ p d right ∧ m.grammar.Leads right a
  productive : m.grammar.Productive sym

namespace Foresees

/-- Some sentence goes on with a lookahead before which a production is completed. -/
theorem admits_of_expects (h : m.Foresees o policy sym start) {γ : List (Symbol T N)} {i p : Nat}
    {a : Lookahead T} (hγ : o.Spells γ i) (he : o.expects i p (m.grammar.rhs p).length a)
    {w : List T} (hw : m.grammar.Derives γ (w.map .terminal)) : m.grammar.Admits sym w a := by
  obtain ⟨right, hv, hl⟩ := h.leads hγ he
  have whole := hv.derives
  rw [List.drop_length, List.nil_append] at whole
  cases a with
  | none =>
      refine h.productive.admits h.starts.listed [] (fun _ => rfl) ?_
      rw [List.append_nil, Option.toList_none, List.append_nil]
      simpa using whole.trans (hw.append hl)
  | some t =>
      obtain ⟨rest, hl⟩ := hl
      refine h.productive.admits h.starts.listed rest nofun ?_
      simpa using whole.trans (hw.append hl)

/-- Some sentence goes on with a terminal for which there is a transition. -/
theorem admits_of_next (h : m.Foresees o policy sym start) {γ : List (Symbol T N)} {i j : Nat}
    {t : T} (hγ : o.Spells γ i) (hn : o.next? i (.terminal t) = some j)
    {w : List T} (hw : m.grammar.Derives γ (w.map .terminal)) :
    m.grammar.Admits sym w (some t) := by
  obtain ⟨p, d, holds, hd⟩ := h.follows.lawful.exists_holds_of_next hn
  obtain ⟨right, hv⟩ := h.valid hγ holds
  have whole := hv.derives
  obtain ⟨hlt, hd⟩ := List.getElem?_eq_some_iff.mp hd
  rw [List.drop_eq_getElem_cons hlt, hd] at whole
  refine h.productive.admits h.starts.listed ((m.grammar.rhs p).drop (d + 1) ++ right) nofun ?_
  simpa using whole.trans (hw.append .refl)

/-- Some sentence goes on with a lookahead on which the table proceeds. -/
theorem admits (h : m.Foresees o policy sym start) {γ : List (Symbol T N)} {i : Nat}
    {a : Lookahead T} (hγ : o.Spells γ i) (ha : m.table.Proceeds i a) {w : List T}
    (hw : m.grammar.Derives γ (w.map .terminal)) : m.grammar.Admits sym w a := by
  obtain ⟨action, ha, sure⟩ := ha
  cases action with
  | shift j =>
      obtain ⟨t, rfl, hn⟩ := h.follows.drives.shift ha
      exact h.admits_of_next hγ hn hw
  | reduce p => exact h.admits_of_expects hγ (h.follows.drives.reduce ha).2 hw
  | accept =>
      obtain ⟨rfl, he⟩ := h.follows.drives.accept ha
      exact h.admits_of_expects hγ he hw
  | error message conflicts ahead => cases sure

/-! ## Reductions are never in vain -/

/-- What a reduction leads to is not rejected. -/
theorem not_rejects_of_reduce (h : m.Foresees o policy sym start) (hr : m.Reaches input c) {p : Nat}
    (ha : m.action? c = some (.reduce p)) (hd : m.reduce p c = .continues d) : ¬ m.Rejects d := by
  have hr' : m.Reaches input d := by
    refine hr.next ?_
    rw [step, ha]
    exact hd
  obtain ⟨w, hw⟩ := hr.exists_hasRead h.follows.lawful h.follows.drives
  obtain ⟨w', hw'⟩ := hr'.exists_hasRead h.follows.lawful h.follows.drives
  obtain ⟨_, rest, token, _, _⟩ := reduce_withStream hd
  obtain rfl : w = w' := by
    refine append_toList_inj (hw.input_eq.symm.trans ?_)
    rw [hw'.input_eq, rest, token]
  obtain ⟨γ, hγ, derives⟩ := hw.path
  refine h.follows.not_rejects h.starts hr' hw' ?_
  rw [token]
  refine h.admits hγ ⟨_, ha, rfl⟩ ?_
  rwa [List.map_map]

/-- The token of a configuration that is rejected has just been asked for. -/
theorem exists_asks (h : m.Foresees o policy sym start) (hr : m.Reaches input c)
    (rejects : m.Rejects c) :
    ∃ b, m.Asks input b ∧ (pull b : Progress K T V E) = .continues c := by
  rcases hr.asks_or_reduces with asks | ⟨d, p, hd, ha, hc⟩
  · exact asks
  · exact absurd rejects (h.not_rejects_of_reduce hd ha hc)

/-- A parse that ends in a syntax error is rejected at once, or shifts last. -/
theorem rejects_or_shifts (h : m.Foresees o policy sym start) {e : SyntaxError K T V}
    (fault : e.fault.message ∉ SyntaxFault.internal) {steps : Nat} :
    ∀ {c : Configuration K V E}, m.Reaches input c →
      m.run steps (.continues c) = some (.rejected e, d) →
      m.Rejects c ∧ (m.eventsFrom steps c).filterMap Event.move? = [] ∨
        ((m.eventsFrom steps c).filterMap Event.move?).getLast? = some .shift := by
  induction steps with
  | zero => exact fun _ hrun => nomatch hrun
  | succ steps ih =>
      intro c hr hrun
      rw [run] at hrun
      rw [eventsFrom, List.filterMap_append, filterMap_announce h.follows.lawful h.follows.drives]
      cases hs : m.step c with
      | ends how d' =>
          rw [hs, run_ends] at hrun
          cases hrun
          have rejects := (of_step_rejected hs fault).1
          rw [rejects.move?_eq_none]
          exact .inl ⟨rejects, rfl⟩
      | continues c' =>
          rw [hs] at hrun
          right
          show (_ ++ (m.eventsFrom steps c').filterMap Event.move?).getLast? = _
          rw [List.getLast?_append]
          rcases ih (hr.next hs) hrun with ⟨rejects, nothing⟩ | last
          · rcases shifts_or_reduces hs with ⟨j, ha, _⟩ | ⟨p, ha, hd⟩
            · rw [nothing, ha]
              rfl
            · exact absurd rejects (h.not_rejects_of_reduce hr ha hd)
          · rw [last]
            rfl

/-- Every reduction before a syntax error has a shift behind it. -/
theorem shift_mem_of_reduce (h : m.Foresees o policy sym start) {e : SyntaxError K T V}
    (fault : e.fault.message ∉ SyntaxFault.internal) {steps : Nat}
    (hp : m.parse steps input = some (.rejected e, d)) {before after : List Move} {q : Nat}
    (moves : m.moves steps input = before ++ .reduce q :: after) : .shift ∈ after := by
  rw [parse] at hp
  rw [Parser.moves, events] at moves
  cases hb : (m.begin input : Progress K T V E) with
  | ends how c =>
      rw [hb] at moves
      simp at moves
  | continues c =>
      rw [hb] at hp moves
      rcases h.rejects_or_shifts fault (.first hb) hp with ⟨_, nothing⟩ | last
      · rw [nothing] at moves
        simp at moves
      · rw [moves, List.getLast?_append, List.getLast?_cons, Option.some_or] at last
        cases behind : after.getLast? with
        | none =>
            rw [behind] at last
            cases last
        | some move =>
            rw [behind] at last
            cases last
            exact List.mem_of_getLast? behind

end Foresees

theorem proceeds_of_not_rejects (h : ¬ m.Rejects c) :
    m.table.Proceeds (m.top c.stack) (c.token.map m.reader.terminal) := by
  obtain ⟨action, h⟩ := not_forall.mp h
  obtain ⟨ha, sure⟩ := Classical.not_imp.mp h
  exact ⟨action, ha, by simpa using sure⟩

/-- A parser that asks for a token proceeds on each with which a sentence goes on. -/
theorem Follows.proceeds_of_asks (h : m.Follows o policy start) (hs : m.grammar.Starts sym start)
    (asks : m.Asks input b) {w rest : List K} (pulls : b.pulls = w.length)
    (read : input.take b.pulls = w.map .ok) {k? : Option K} (ends : k? = none → rest = [])
    (sentence : m.grammar.IsSentence sym ((w ++ k?.toList ++ rest).map m.reader.terminal)) :
    m.table.Proceeds (m.top b.stack) (k?.map m.reader.terminal) := by
  have items : ((w ++ k?.toList ++ rest).map .ok : List (Except E K)) =
      w.map .ok ++ (k?.toList ++ rest).map .ok := by rw [List.append_assoc, List.map_append]
  have length : (w.map .ok : List (Except E K)).length = b.pulls := by rw [List.length_map, pulls]
  have asks' := asks.withStream
    (show ((w ++ k?.toList ++ rest).map .ok : List (Except E K)).take b.pulls = _ by
      rw [items, read, List.take_left' length])
  obtain ⟨c, hc, at_c⟩ := pull_at (T := T) (w := k?.toList ++ rest)
    (c := b.withStream ((w ++ k?.toList ++ rest).map .ok))
    (show ((w ++ k?.toList ++ rest).map .ok : List (Except E K)).drop b.pulls = _ by
      rw [items, List.drop_left' length])
  have sure := proceeds_of_not_rejects (h.not_rejects_of_sentence hs sentence (asks'.reaches hc))
  have token : c.token = k? := by
    rw [at_c.token_eq]
    cases k? with
    | none => rw [ends rfl]; rfl
    | some k => rfl
  rwa [at_c.stack_eq, token] at sure

theorem Foresees.onTerminals (h : m.Foresees o policy sym start) (v : V) :
    (m.onTerminals v).Foresees o policy sym start :=
  ⟨h.follows.onTerminals v, h.starts, h.valid, h.leads, h.productive⟩

/-- Where a parser rejects, the table proceeds on just what sentences go on with. -/
theorem Foresees.proceeds_iff (h : m.Foresees o policy sym start) (hr : m.Reaches input c)
    (rejects : m.Rejects c) {w : List K} (hw : m.HasRead o input c w) (a : Lookahead T) :
    m.table.Proceeds (m.top c.stack) a ↔ m.grammar.Admits sym (w.map m.reader.terminal) a := by
  constructor
  · intro ha
    obtain ⟨γ, hγ, derives⟩ := hw.path
    refine h.admits hγ ha ?_
    rwa [List.map_map]
  · rintro ⟨rest, ends, sentence⟩
    obtain ⟨v, c', hr', hc, hw'⟩ := h.follows.exists_onTerminals h.starts hr hw
    have h' := h.onTerminals v
    obtain ⟨b, asks, hb⟩ := h'.exists_asks hr' ((rejects_of_alike hc).mpr rejects)
    have asked := asked_of_pull hb
    have pulls : b.pulls = (w.map m.reader.terminal).length := by
      rw [asks.placed.2, ← asked.shifts, hw'.shifts]
    have read : (m.reader.stream input).take b.pulls = (w.map m.reader.terminal).map .ok := by
      rw [hw'.input_eq, List.map_append, List.append_assoc]
      exact List.take_left' (by rw [List.length_map, pulls])
    rw [← List.map_id (_ ++ rest)] at sentence
    have sure := h'.follows.proceeds_of_asks h'.starts asks pulls read ends sentence
    have ahead : a.map (m.onTerminals v).reader.terminal = a := Option.map_id_apply
    rwa [← asked.stack, top_of_alike hc, ahead] at sure

end Parser

/-! ## Syntax errors of LR(1) parsers -/

namespace Grammar

variable [Ordered T] [Ordered N] {g : Grammar T N V} {start : N} {p : Nat}

/-- For every grammar that is fit for a table, in which every nonterminal that the start
symbol reaches derives some terminals, and every policy that vetoes nothing: if no LR(1) cell
has two candidates, there is an LR(1) table, and where a parser with it ends in a syntax
error, each reduction has a shift behind it.  The expected terminals are those with which some
sentence goes on behind the tokens that were shifted, and the end of the input is expected
behind them if and only if these tokens are a sentence. -/
theorem rejects_with_expected (hv : g.validate start = .ok p) {policy : Policy T}
    (permits : ∀ q a, policy.reduceOn q a = true)
    (single : (g.outline .lr1 start p).Deterministic g policy p)
    (productive : g.Productive start) :
    ∃ table, (g.compile .lr1 start policy).table = .ok table ∧
      ∀ (r : Reader K T V) (input : List (Except E K)) (steps : Nat) (e : SyntaxError K T V)
        (c : Configuration K V E),
        (⟨g, table, r⟩ : Parser K T N V).parse steps input = some (.rejected e, c) →
        (∀ before q after, (⟨g, table, r⟩ : Parser K T N V).moves steps input =
          before ++ .reduce q :: after → .shift ∈ after) ∧
        ∃ w : List K, w.length = c.stats.shifts ∧ w.map .ok <+: input ∧
          ∃ next : SortedSet T,
            (∀ t, t ∈ next ↔ ∃ z, g.IsSentence start (w.map r.terminal ++ t :: z)) ∧
            (g.IsSentence start (w.map r.terminal) ∧
                e.expected = next.toList.map some ++ [none] ∨
              ¬ g.IsSentence start (w.map r.terminal) ∧ e.expected = next.toList.map some) := by
  have hs := starts_of_validate hv
  have ho := lawful_outline hs .lr1
  obtain ⟨table, _, ht, resolved, _⟩ := exists_table_of_deterministic hv single
  refine ⟨table, ht, fun r input steps e c hp => ?_⟩
  have foresees : (⟨g, table, r⟩ : Parser K T N V).Foresees (g.outline .lr1 start p) policy
      start p :=
    ⟨⟨ho, resolved.drives, permits, resolved.action_eq ho single⟩, hs, exists_valid hs,
      exists_valid_leads hs, productive⟩
  obtain ⟨hr, rejects, he⟩ := Parser.exists_rejects_of_parse ho resolved.drives hp
  obtain ⟨w, hw⟩ := hr.exists_hasRead ho resolved.drives
  refine ⟨fun before q after moves => ?_, w, hw.shifts.symm, ?_, ?_⟩
  · exact foresees.shift_mem_of_reduce (Parser.fault_of_parse ho resolved.drives hp) hp moves
  · rw [hw.input_eq, List.map_append, List.append_assoc]
    exact List.prefix_append _ _
  · obtain ⟨next, members, expected⟩ :=
      table.exists_expected ((⟨g, table, r⟩ : Parser K T N V).top c.stack)
    have exact_ahead := foresees.proceeds_iff hr rejects hw
    simp only [exact_ahead, admits_some, admits_none] at members expected
    have listed : e.expected = table.expected ((⟨g, table, r⟩ : Parser K T N V).top c.stack) := by
      rw [he]
    rw [← listed] at expected
    exact ⟨next, members, expected⟩

/-- Between brackets a bracket may be opened or closed, and nothing may end. -/
theorem rejects_with_expected_brackets : brackets.validate 0 = .ok 0 ∧
    (brackets.outline .lr1 0 0).Deterministic brackets {} 0 ∧ brackets.Productive 0 ∧
    ∃ table e c, (brackets.compile .lr1 0 {}).table = .ok table ∧
      (⟨brackets, table, ones⟩ : Parser Nat Nat Nat Nat).parse 20
        ([0, 0, 7].map .ok : List (Except Empty Nat)) = some (.rejected e, c) ∧
      c.stats.shifts = 2 ∧ e.expected = [some 0, some 1] ∧
      (∃ z, brackets.IsSentence 0 (0 :: 0 :: 1 :: z)) ∧ ¬ brackets.IsSentence 0 [0, 0] := by
  have hv : brackets.validate 0 = .ok 0 := by rfl
  have single : brackets.isDeterministic .lr1 0 {} 0 = true := by decide +kernel
  have deterministic := deterministic_of_isDeterministic hv single
  have inner : brackets.Derives [.nonterminal 1] [] :=
    .of_production (p := ⟨1, [], none, total⟩) (.tail _ (.tail _ (.head _)))
  have sentence : brackets.Derives [.nonterminal 0] [] :=
    .trans (.of_production (p := ⟨0, [.nonterminal 1], none, total⟩) (.head _)) inner
  have productive : brackets.Productive 0 := by
    intro n hn
    have reached : (brackets.reachable 0).toList = [0, 1] := by decide +kernel
    rw [← SortedSet.mem_toList, reached] at hn
    rcases List.mem_pair.mp hn with rfl | rfl
    · exact ⟨[], sentence⟩
    · exact ⟨[], inner⟩
  obtain ⟨table, ht, wrong⟩ := rejects_with_expected (K := Nat) (E := Empty) hv (fun _ _ => rfl)
    deterministic productive
  have rejected : (brackets.rejection? .lr1 0 {} ones 20 [0, 0, 7]).map
      (fun (e, c) => (c.stats.shifts, e.expected)) = some (2, [some 0, some 1]) := by
    decide +kernel
  obtain ⟨⟨e, c⟩, rejected, met⟩ := Option.map_eq_some_iff.mp rejected
  obtain ⟨shifts, expected⟩ := Prod.mk.inj met
  have hp := parse_of_rejection? rejected ht
  obtain ⟨_, w, length, read, next, members, ahead⟩ := wrong ones _ _ e c hp
  have opened : w = [0, 0] := by
    rw [shifts] at length
    match w, length with
    | [a, b], _ =>
        cases List.prefix_iff_eq_take.mp read
        rfl
  subst opened
  rw [expected] at ahead
  rcases ahead with ⟨_, ahead⟩ | ⟨refused, ahead⟩
  · have last := congrArg List.getLast? ahead
    rw [List.getLast?_append] at last
    cases last
  · have both : [0, 1] = next.toList :=
      List.map_injective_iff.mpr (Option.some_injective Nat) ahead
    have closed : 1 ∈ next := SortedSet.mem_toList.mp (both ▸ List.mem_cons_of_mem 0 (.head _))
    exact ⟨hv, deterministic, productive, table, e, c, ht, hp, shifts, expected,
      (members 1).mp closed, refused⟩

end Grammar

end BottomUp
