import BottomUp.Proofs.Completion
import Mathlib.Data.Set.Finite.Lattice

/-!
# Termination

Shifts take tokens, so a parser runs forever only if it reduces forever before one and the
same token.  All the while the trees on its stack have one frontier, and more and more nodes.
If the grammar is productive, each of these stacks can be completed to a sentence by some
tokens, and the parser comes by the same stack wherever such tokens begin as they do.  So fix
one completion for each lookahead.  The parser accepts what it completes to in some number of
steps, and comes by all these stacks on the way.  That bounds the number of their nodes
(`Completes.bddAbove`), so the parser ends (`parse_terminates`).

Without that the parser need not end, though no cell has two candidates.  A nonterminal that
derives no terminals keeps lookaheads out of FIRST sets and with them actions out of the
table.  Then an empty production may be reduced again and again (`Parser.run_eq_none`).
-/

namespace BottomUp

variable {K T N V E : Type}

/-! ## Counting reductions -/

namespace Configuration

/-- The number of tokens, or errors, that are not shifted. -/
def remaining (c : Configuration K V E) : Nat := c.input.length + c.token.toList.length

end Configuration

namespace Parser

theorem of_pull_continues {c d : Configuration K V E}
    (h : (pull c : Progress K T V E) = .continues d) :
    d.stack = c.stack ∧ d.stats.reductions = c.stats.reductions ∧ d.remaining = c.input.length := by
  obtain ⟨stack, token, input, stats, pulls⟩ := c
  cases input with
  | nil =>
      cases h
      exact ⟨rfl, rfl, rfl⟩
  | cons item rest =>
      cases item with
      | ok k =>
          cases h
          exact ⟨rfl, rfl, rfl⟩
      | error e => cases h

variable [Ordered T] [Ordered N] {m : Parser K T N V} {c d : Configuration K V E}

theorem of_reduce_continues {p : Nat} (h : m.reduce p c = .continues d) :
    d.token = c.token ∧ d.input = c.input ∧ d.stats.reductions = c.stats.reductions + 1 := by
  rw [reduce] at h
  split at h
  · cases h
  · split at h
    · cases h
    · split at h
      · cases h
      · dsimp only at h
        split at h
        · cases h
        · cases h
          exact ⟨rfl, rfl, rfl⟩

/-- A parser that goes on has shifted or reduced. -/
theorem of_step_continues (h : m.step c = .continues d) :
    (∃ j, m.action? c = some (.shift j) ∧ d.stats.reductions = c.stats.reductions ∧
      d.remaining = c.input.length) ∨
    ∃ p, m.action? c = some (.reduce p) ∧ d.token = c.token ∧ d.input = c.input ∧
      d.stats.reductions = c.stats.reductions + 1 := by
  obtain ⟨action, _, ha, hm⟩ := exists_move_of_step h
  rw [step, ha] at h
  cases action with
  | shift j =>
      obtain ⟨_, hr, hl⟩ := of_pull_continues h
      exact .inl ⟨j, ha, hr, hl⟩
  | reduce p => exact .inr ⟨p, ha, of_reduce_continues h⟩
  | accept => exact absurd h not_continues_of_accept
  | error _ _ _ => cases hm

/-- There are no more reductions than steps. -/
theorem Goes.reductions_le (h : m.Goes c d) {steps : Nat}
    {ending : Ending K T V E × Configuration K V E}
    (hr : m.run steps (.continues c) = some ending) :
    d.stats.reductions ≤ c.stats.reductions + steps := by
  induction h generalizing steps with
  | refl => exact Nat.le_add_right _ _
  | @step c c' _ hs _ ih =>
      cases steps with
      | zero => cases hr
      | succ steps =>
          rw [run, hs] at hr
          have later := ih hr
          have one : c'.stats.reductions ≤ c.stats.reductions + 1 := by
            rcases of_step_continues hs with ⟨_, _, h, _⟩ | ⟨_, _, _, _, h⟩ <;> omega
          omega

/-- What ends later ends. -/
theorem Goes.exists_run_of_run (h : m.Goes c d) {steps : Nat}
    {ending : Ending K T V E × Configuration K V E}
    (hr : m.run steps (.continues d) = some ending) :
    ∃ steps, m.run steps (.continues c) = some ending := by
  induction h with
  | refl => exact ⟨steps, hr⟩
  | step hs _ ih =>
      obtain ⟨steps, hr⟩ := ih hr
      refine ⟨steps + 1, ?_⟩
      rw [run, hs]
      exact hr

end Parser

/-! ## Stacks that can be completed -/

namespace Parser

variable [Ordered T] [Ordered N]

/-- A production is completed on top of the trees, and terminals that the lookahead is the
first of complete them to a sentence. -/
def Viable (m : Parser K T N V) (sym : N) (a : Lookahead T) (ts : List (Tree K)) : Prop :=
  ∃ γ p right, ∃ w : List T, Tree.AreOf m.grammar m.reader γ ts ∧
    m.grammar.Valid sym γ p (m.grammar.rhs p).length right ∧
    m.grammar.Derives right (w.map .terminal) ∧ w.head? = a

/-- A parser of a productive grammar for all of whose terminals there are tokens. -/
structure Completes (m : Parser K T N V) (o : Outline T N) (policy : Policy T) (sym : N)
    (start : Nat) : Prop where
  follows : m.Follows o policy start
  starts : m.grammar.Starts sym start
  valid {γ : List (Symbol T N)} {i p d : Nat} : o.Spells γ i → o.holds i p d →
    ∃ right, m.grammar.Valid sym γ p d right
  productive : m.grammar.Productive sym
  tokens : Function.Surjective m.reader.terminal

end Parser

/-- What is on the stack stands for the string along which it has grown. -/
theorem Outline.Grows.exists_spells {o : Outline T N} {g : Grammar T N V} {r : Reader K T V}
    {i : Nat} {stack : List (Entry (Tree K))} (h : o.Grows g r i stack) :
    ∃ γ, o.Spells γ i ∧ Tree.AreOf g r γ (Parser.values stack) := by
  induction h with
  | bottom => exact ⟨[], .nil, rfl, by simp [Parser.values]⟩
  | @push i j stack t s _ ht hs hn ih =>
      obtain ⟨γ, hγ, trees⟩ := ih
      refine ⟨γ ++ [s], hγ.concat hn, ?_⟩
      rw [Parser.values_cons_some]
      refine trees.append ⟨?_, fun t' ht' => List.mem_singleton.mp ht' ▸ ht⟩
      rw [List.map_singleton, List.map_singleton, hs]

namespace Parser

variable [Ordered T] [Ordered N] {m : Parser K T N V} {o : Outline T N} {policy : Policy T}
  {sym : N} {start : Nat} {input : List (Except E K)} {c d : Configuration K (Tree K) E}

theorem Follows.keeps_of_goes (h : m.Follows o policy start) (hg : m.toTrees.Goes c d)
    (hk : o.Keeps m.grammar m.reader input c) : o.Keeps m.grammar m.reader input d := by
  induction hg with
  | refl => exact hk
  | step hs _ ih =>
      have sound := step_sound h.lawful h.drives hk
      rw [hs] at sound
      cases sound with
      | continues hk' => exact ih hk'

/-- The parse to trees ends, or it goes on to where fewer tokens remain. -/
def Advances (m : Parser K T N V) (c : Configuration K (Tree K) E) : Prop :=
  (∃ steps ending, m.toTrees.run steps (.continues c) = some ending) ∨
    ∃ d, m.toTrees.Goes c d ∧ d.remaining < c.remaining

namespace Completes

/-- The tokens of some terminals. -/
theorem exists_tokens (h : m.Completes o policy sym start) (w : List T) :
    ∃ z : List K, z.map m.reader.terminal = w :=
  h.tokens.list_map w

/-- The stack can be completed whenever a production is reduced. -/
theorem viable_of_reduce (h : m.Completes o policy sym start)
    (hk : o.Keeps m.grammar m.reader input c) {p : Nat}
    (ha : m.toTrees.action? c = some (.reduce p)) :
    ∃ a ∈ m.grammar.lookaheads, m.Viable sym a (values c.stack) := by
  obtain ⟨i, hi⟩ := hk.grows
  have top : m.toTrees.top c.stack = i := hi.top_eq _
  rw [action?, top] at ha
  obtain ⟨_, he⟩ := h.follows.drives.reduce ha
  obtain ⟨γ, hγ, trees⟩ := hi.exists_spells
  obtain ⟨right, hv⟩ := h.valid hγ (h.follows.lawful.holds_of_expects he)
  obtain ⟨production, left, hp, hd, hc, rfl⟩ := hv
  obtain ⟨w, hw⟩ := hc.exists_derives_terminals h.starts.listed h.productive
  refine ⟨w.head?, ?_, _, p, right, w, trees, ⟨production, left, hp, hd, hc, rfl⟩, hw, rfl⟩
  obtain ⟨j, _, hj⟩ := h.follows.lawful.exists_spells_of_valid h.starts
    ⟨production, left, hp, hd, hc, rfl⟩ hw
  cases hhead : w.head? with
  | none => exact Grammar.none_mem_lookaheads
  | some t =>
      rw [hhead] at hj
      exact Grammar.some_mem_lookaheads.mpr (h.follows.lawful.mem_terminals hj)

/-- Trees with one frontier that can be completed before one lookahead have boundedly many
nodes. -/
theorem bddAbove_of_lookahead (h : m.Completes o policy sym start) (x : List K) (a : Lookahead T) :
    BddAbove {n | ∃ ts, m.Viable sym a ts ∧ Tree.frontiers ts = x ∧ Tree.nodesOfAll ts = n} := by
  by_cases some_viable : ∃ ts, m.Viable sym a ts ∧ Tree.frontiers ts = x
  · obtain ⟨ts₀, ⟨γ₀, p₀, right₀, w, trees₀, valid₀, hw, hhead⟩, hx⟩ := some_viable
    obtain ⟨z, rfl⟩ := h.exists_tokens w
    have hz := hw
    rw [List.map_map] at hz
    obtain ⟨t, tree, root, frontier⟩ := valid₀.exists_tree trees₀ hz
    rw [hx] at frontier
    obtain ⟨steps, _, parsed⟩ := h.follows.exists_parse (E := Empty) h.starts tree root
    -- the parse of the completed frontier comes by every other such stack
    refine ⟨steps, ?_⟩
    rintro n ⟨ts, ⟨γ, p, right, w', trees, valid, hw', hhead'⟩, hts, rfl⟩
    have same : z.head?.map m.reader.terminal = w'.head? := by
      rw [hhead', ← hhead, List.head?_map]
    obtain ⟨i, c₀, stack, c, hbegin, hgoes, hc, _, hvalues⟩ :=
      h.follows.arrives_of_valid (E := Empty) h.starts valid hw' trees same
    have keeps : o.Keeps m.grammar m.reader ((Tree.frontiers ts ++ z).map .ok) c₀ := by
      have sound := begin_sound (E := Empty) h.follows.drives ((Tree.frontiers ts ++ z).map .ok)
      rw [hbegin] at sound
      cases sound with
      | continues hk => exact hk
    have first : c₀.stats.reductions = 0 := by
      rw [begin] at hbegin
      exact (of_pull_continues hbegin).2.1
    rw [frontier, ← hts, parse, hbegin] at parsed
    have bound := hgoes.reductions_le parsed
    rw [first, Nat.zero_add, (h.follows.keeps_of_goes hgoes keeps).reductions, hc.stack_eq,
      hvalues] at bound
    exact bound
  · refine ⟨0, ?_⟩
    rintro n ⟨ts, viable, hts, -⟩
    exact absurd ⟨ts, viable, hts⟩ some_viable

/-- Trees with one frontier that are on the stack before a reduction have boundedly many
nodes. -/
theorem bddAbove (h : m.Completes o policy sym start) (x : List K) :
    BddAbove {n | ∃ a ∈ m.grammar.lookaheads, ∃ ts, m.Viable sym a ts ∧
      Tree.frontiers ts = x ∧ Tree.nodesOfAll ts = n} := by
  have each := (Set.Finite.bddAbove_biUnion (List.finite_toSet m.grammar.lookaheads)).mpr
    fun a _ => h.bddAbove_of_lookahead x a
  refine each.mono ?_
  rintro n ⟨a, ha, viable⟩
  exact Set.mem_biUnion ha viable

/-- A step that takes no token is a reduction. -/
theorem reduces_of_step (h : m.Completes o policy sym start)
    (hk : o.Keeps m.grammar m.reader input c) {d : Configuration K (Tree K) E}
    (hs : m.toTrees.step c = .continues d) :
    d.remaining < c.remaining ∨ ∃ p, m.toTrees.action? c = some (.reduce p) ∧
      d.token = c.token ∧ d.input = c.input ∧ d.stats.reductions = c.stats.reductions + 1 := by
  rcases of_step_continues hs with ⟨j, ha, _, hl⟩ | hr
  · obtain ⟨i, hi⟩ := hk.grows
    have top : m.toTrees.top c.stack = i := hi.top_eq _
    rw [action?, top] at ha
    obtain ⟨t, ht, _⟩ := h.follows.drives.shift ha
    obtain ⟨k, token, _⟩ := Option.map_eq_some_iff.mp ht
    refine .inl ?_
    rw [hl, Configuration.remaining, token]
    exact Nat.lt_succ_self _
  · exact .inr hr

/-- The parse ends, or goes on to where fewer tokens remain, or it reduces next. -/
theorem advances_or_reduces (h : m.Completes o policy sym start)
    (hk : o.Keeps m.grammar m.reader input c) (hg : m.toTrees.Goes c d)
    (ht : d.token = c.token) (hi : d.input = c.input) :
    m.Advances c ∨ ∃ p d', m.toTrees.action? d = some (.reduce p) ∧
      m.toTrees.step d = .continues d' ∧ d'.token = c.token ∧ d'.input = c.input ∧
      d'.stats.reductions = d.stats.reductions + 1 := by
  cases hs : m.toTrees.step d with
  | ends how d' =>
      obtain ⟨steps, hr⟩ := hg.exists_run hs
      exact .inl (.inl ⟨steps, _, hr⟩)
  | continues d' =>
      rcases h.reduces_of_step (h.follows.keeps_of_goes hg hk) hs with hlt | ⟨p, ha, ht', hi', hr⟩
      · have same : d.remaining = c.remaining := by
          rw [Configuration.remaining, Configuration.remaining, hi, ht]
        exact .inl (.inr ⟨d', hg.trans (.step hs .refl), same ▸ hlt⟩)
      · exact .inr ⟨p, d', ha, rfl, ht'.trans ht, hi'.trans hi, hr⟩

/-- Otherwise it reduces as often as one likes. -/
theorem advances_or_reduces_often (h : m.Completes o policy sym start)
    (hk : o.Keeps m.grammar m.reader input c) (n : Nat) :
    m.Advances c ∨ ∃ p d, m.toTrees.Goes c d ∧ m.toTrees.action? d = some (.reduce p) ∧
      d.token = c.token ∧ d.input = c.input ∧
      d.stats.reductions = c.stats.reductions + n := by
  induction n with
  | zero =>
      rcases h.advances_or_reduces hk .refl rfl rfl with done | ⟨p, _, ha, _⟩
      · exact .inl done
      · exact .inr ⟨p, c, .refl, ha, rfl, rfl, rfl⟩
  | succ n ih =>
      rcases ih with done | ⟨_, d, hg, _, ht, hi, hr⟩
      · exact .inl done
      rcases h.advances_or_reduces hk hg ht hi with done | ⟨_, d', _, hs, ht', hi', hr'⟩
      · exact .inl done
      have hg' := hg.trans (.step hs .refl)
      rcases h.advances_or_reduces hk hg' ht' hi' with done | ⟨p, _, ha, _⟩
      · exact .inl done
      · exact .inr ⟨p, d', hg', ha, ht', hi', by omega⟩

/-- That is too often, for what is on the stack before a reduction can be completed. -/
theorem advances (h : m.Completes o policy sym start)
    (hk : o.Keeps m.grammar m.reader input c) : m.Advances c := by
  obtain ⟨bound, hbound⟩ := h.bddAbove (Tree.frontiers (values c.stack))
  refine (h.advances_or_reduces_often hk (bound + 1)).resolve_right ?_
  rintro ⟨p, d, hg, ha, ht, hi, hr⟩
  have hd := h.follows.keeps_of_goes hg hk
  obtain ⟨a, hmem, viable⟩ := h.viable_of_reduce hd ha
  have frontier : Tree.frontiers (values d.stack) = Tree.frontiers (values c.stack) := by
    have both := hd.input_eq.symm.trans hk.input_eq
    rw [ht, hi] at both
    have both := List.map_injective_iff.mpr (fun _ _ => Except.ok.inj)
      (List.append_cancel_right both)
    exact List.append_cancel_right both
  have := hbound ⟨a, hmem, _, viable, frontier, rfl⟩
  rw [← hd.reductions, hr] at this
  omega

/-- A parse to trees ends, however it goes on from where it is. -/
theorem exists_run (h : m.Completes o policy sym start)
    (hk : o.Keeps m.grammar m.reader input c) :
    ∃ steps ending, m.toTrees.run steps (.continues c) = some ending := by
  induction hn : c.remaining using Nat.strong_induction_on generalizing c with
  | _ n ih =>
      subst hn
      rcases h.advances hk with ends | ⟨d, hg, hlt⟩
      · exact ends
      · obtain ⟨steps, ending, hr⟩ := ih _ hlt (h.follows.keeps_of_goes hg hk) rfl
        obtain ⟨steps, hr⟩ := hg.exists_run_of_run hr
        exact ⟨steps, ending, hr⟩

/-- A parse ends. -/
theorem exists_parse (h : m.Completes o policy sym start) (input : List (Except E K)) :
    ∃ steps ending, m.parse steps input = some ending := by
  have trees : ∃ steps ending, m.toTrees.run steps (m.toTrees.begin input) = some ending := by
    have sound := begin_sound h.follows.drives input
    cases hb : m.toTrees.begin input with
    | ends how c => exact ⟨0, _, rfl⟩
    | continues c =>
        rw [hb] at sound
        cases sound with
        | continues hk => exact h.exists_run hk
  obtain ⟨steps, ending, hr⟩ := trees
  rcases run_shows (begin_shows m input) steps with ⟨_, _, how, c, _, hv, _⟩ | ⟨hnone, _⟩
  · exact ⟨steps, _, hv⟩
  · cases hr.symm.trans hnone

end Completes

/-- No parse ends with a length that does not fit a word. -/
theorem ending_cases {m : Parser K T N V} {c : Configuration K V E}
    (ho : o.Lawful m.grammar start) (hd : o.Drives m.grammar start m.table) {steps : Nat}
    {how : Ending K T V E} (h : m.parse steps input = some (how, c)) :
    (∃ v, how = .accepted v) ∨ (∃ e, how = .rejected e) ∨ ∃ e, how = .lexical e := by
  obtain ⟨how', _, hrun, hh, _⟩ := parse_shows h
  have hf := run_sound ho hd (begin_sound hd input) hrun
  cases hh with
  | accepted _ => exact .inl ⟨_, rfl⟩
  | lexical e => exact .inr (.inr ⟨e, rfl⟩)
  | rejected _ => exact .inr (.inl ⟨_, rfl⟩)
  | overflow => cases hf

end Parser

/-! ## Termination -/

namespace Grammar

variable [Ordered T] [Ordered N] {g : Grammar T N V} {start : N} {p : Nat}

/-- A parser that reads terminals for tokens completes, if the grammar is productive. -/
theorem completes_of_productive (hs : g.Starts start p) {method : Method} {policy : Policy T}
    {table : ParseTable T N} {value : T → V}
    (follows : (⟨g, table, ⟨id, value⟩⟩ : Parser T T N V).Follows (g.outline method start p)
      policy p)
    (productive : g.Productive start) :
    (⟨g, table, ⟨id, value⟩⟩ : Parser T T N V).Completes (g.outline method start p) policy start p
    where
  follows := follows
  starts := hs
  valid := exists_valid hs
  productive := productive
  tokens := Function.surjective_id

/-- For every grammar that is fit for a table, both methods and every policy that vetoes
nothing: if no cell has two candidates and every nonterminal that the start symbol reaches
derives some terminals, there is a table, and a parser with it ends on every stream of
tokens.  It accepts or rejects it, or the stream breaks off. -/
theorem parse_terminates (hv : g.validate start = .ok p) (method : Method) {policy : Policy T}
    (permits : ∀ q a, policy.reduceOn q a = true)
    (single : (g.outline method start p).Deterministic g policy p)
    (productive : g.Productive start) :
    ∃ table, (g.compile method start policy).table = .ok table ∧
      ∀ (r : Reader K T V) (input : List (Except E K)), ∃ steps how c,
        (⟨g, table, r⟩ : Parser K T N V).parse steps input = some (how, c) ∧
          ((∃ v, how = .accepted v) ∨ (∃ e, how = .rejected e) ∨ ∃ e, how = .lexical e) := by
  have hs := starts_of_validate hv
  have ho := lawful_outline hs method
  obtain ⟨table, _, ht, resolved, _⟩ := exists_table_of_deterministic hv single
  refine ⟨table, ht, fun r input => ?_⟩
  -- any value will do for the tokens of the parser that reads terminals
  obtain ⟨production, _, _⟩ := hs.exists_production
  have follows : (⟨g, table, ⟨id, fun _ => production.act []⟩⟩ : Parser T T N V).Follows
      (g.outline method start p) policy p :=
    ⟨ho, resolved.drives, permits, resolved.action_eq ho single⟩
  have completes := completes_of_productive hs follows productive
  have shadows : (⟨g, table, ⟨id, fun _ => production.act []⟩⟩ : Parser T T N V).Shadows
      ⟨g, table, r⟩ (g.outline method start p) (g.outline method start p) policy p :=
    ⟨rfl, ho, resolved.drives, .refl _, follows⟩
  have stream : r.stream input =
      (⟨id, fun _ => production.act []⟩ : Reader T T V).stream (r.stream input) := by
    rw [Reader.stream, Reader.stream, List.map_map]
    refine List.map_congr_left fun item _ => ?_
    cases item <;> rfl
  obtain ⟨steps, _, ends⟩ := completes.exists_parse (r.stream input)
  obtain ⟨⟨how, c⟩, hp⟩ := shadows.exists_run (shadows.begin_alike stream) ends
  exact ⟨steps, how, c, hp, Parser.ending_cases ho resolved.drives hp⟩

/-- Lists are productive, so whatever is read for a list the parser ends. -/
theorem parse_terminates_lists : lists.validate 0 = .ok 0 ∧
    (lists.outline .slr 0 0).Deterministic lists {} 0 ∧ lists.Productive 0 ∧
    ∃ table, (lists.compile .slr 0 {}).table = .ok table ∧
      ∀ input : List (Except String Nat), ∃ steps how c,
        (⟨lists, table, ones⟩ : Parser Nat Nat Nat Nat).parse steps input = some (how, c) ∧
          ((∃ v, how = .accepted v) ∨ (∃ e, how = .rejected e) ∨ ∃ e, how = .lexical e) := by
  have hv : lists.validate 0 = .ok 0 := by rfl
  have single : lists.isDeterministic .slr 0 {} 0 = true := by decide +kernel
  have deterministic := deterministic_of_isDeterministic hv single
  have list : lists.Derives [.nonterminal 1] [] :=
    .of_production (p := ⟨1, [], none, total⟩) (.tail _ (.tail _ (.head _)))
  have sentence : lists.Derives [.nonterminal 0] [] :=
    .trans (.of_production (p := ⟨0, [.nonterminal 1], none, total⟩) (.head _)) list
  have productive : lists.Productive 0 := by
    intro n hn
    have reached : (lists.reachable 0).toList = [0, 1] := by decide +kernel
    rw [← SortedSet.mem_toList, reached] at hn
    rcases List.mem_pair.mp hn with rfl | rfl
    · exact ⟨[], sentence⟩
    · exact ⟨[], list⟩
  obtain ⟨table, ht, ends⟩ := parse_terminates (K := Nat) (E := String) hv .slr (fun _ _ => rfl)
    deterministic productive
  exact ⟨hv, deterministic, productive, table, ht, ends ones⟩

end Grammar

/-! ## Grammars that are not productive -/

/-- In each of the states an empty production is reduced before the lookahead, and that leads
to one of the states. -/
def ParseTable.stalls [Ordered T] [Ordered N] (table : ParseTable T N) (g : Grammar T N V)
    (a : Lookahead T) (states : List Nat) : Bool :=
  states.all fun i =>
    match table.action? i a with
    | some (.reduce p) =>
        match table.productions[p]? with
        | some ⟨lhs, 0⟩ =>
            (g.productions[p]?).isSome && (table.goto? i lhs).any fun j => states.contains j
        | _ => false
    | _ => false

namespace Parser

variable [Ordered T] [Ordered N] {m : Parser K T N V} {a : Lookahead T} {states : List Nat}

theorem exists_of_stalls (h : m.table.stalls m.grammar a states = true) {i : Nat}
    (hi : i ∈ states) :
    ∃ p production lhs j, m.table.action? i a = some (.reduce p) ∧
      m.table.productions[p]? = some ⟨lhs, 0⟩ ∧ m.grammar.productions[p]? = some production ∧
      m.table.goto? i lhs = some j ∧ j ∈ states := by
  have at_i := List.all_eq_true.mp h i hi
  split at at_i
  · rename_i p ha
    split at at_i
    · rename_i lhs hp
      rw [Bool.and_eq_true] at at_i
      obtain ⟨production, hg⟩ := Option.isSome_iff_exists.mp at_i.1
      obtain ⟨j, hj, hmem⟩ := (Option.any_eq_true _ _).mp at_i.2
      exact ⟨p, production, lhs, j, ha, hp, hg, hj, List.contains_iff_mem.mp hmem⟩
    · cases at_i
  · cases at_i

/-- A parser does not end once it is in such a state before the lookahead. -/
theorem run_eq_none (h : m.table.stalls m.grammar a states = true) (steps : Nat) :
    ∀ {c : Configuration K V E} {e : Entry V} {stack : List (Entry V)}, c.stack = e :: stack →
      e.state ∈ states → c.token.map m.reader.terminal = a → m.run steps (.continues c) = none := by
  induction steps with
  | zero => exact fun _ _ _ => rfl
  | succ steps ih =>
      intro c e stack hstack hi ht
      obtain ⟨p, production, lhs, j, ha, hp, hg, hj, hmem⟩ := exists_of_stalls h hi
      have action : m.action? c = some (.reduce p) := by
        rw [action?, hstack, ht]
        exact ha
      have enough : (⟨lhs, 0⟩ : ProductionInfo N).len < c.stack.length := by
        rw [hstack]
        exact Nat.zero_lt_succ _
      have goto : m.table.goto? (m.top (c.stack.drop 0)) lhs = some j := by
        rw [hstack]
        exact hj
      rw [run, step, action]
      simp only [reduce_eq hp hg enough goto]
      exact ih rfl hmem ht

end Parser

namespace Grammar

/-- No cell of the automaton has two candidates, and no parse of this one token ends with the
table of the automaton. -/
def Stalls (g : Grammar Nat Nat Nat) (method : Method) : Prop :=
  g.validate 0 = .ok 0 ∧ (g.outline method 0 0).Deterministic g {} 0 ∧
    ∃ table, (g.compile method 0 {}).table = .ok table ∧
      ∀ steps, (⟨g, table, ones⟩ : Parser Nat Nat Nat Nat).parse steps
        ([0].map .ok : List (Except Empty Nat)) = none

theorem stalls_of_table {g : Grammar Nat Nat Nat} {method : Method} (states : List Nat)
    (hv : g.validate 0 = .ok 0) (single : g.isDeterministic method 0 {} 0 = true)
    (first : 0 ∈ states)
    (stalls : (match (g.compile method 0 {}).table with
      | .ok table => table.stalls g (some 0) states
      | .error _ => false) = true) : g.Stalls method := by
  have deterministic := deterministic_of_isDeterministic hv single
  obtain ⟨table, verdict, ht, resolved, _⟩ := exists_table_of_deterministic hv deterministic
  rw [ht] at stalls
  refine ⟨hv, deterministic, table, ht, fun steps => ?_⟩
  refine Parser.run_eq_none (m := ⟨g, table, ones⟩) stalls steps rfl ?_ rfl
  show table.start ∈ states
  rw [resolved.start_eq]
  exact first

/-- A sentence `0` is a nonterminal `1`, which derives no terminals: it comes with the empty
nonterminal `2` before it and a terminal behind it, or as `3`, the terminal `0`, before a
nonterminal `4` that derives no terminals either. -/
def stallingLr1 : Grammar Nat Nat Nat :=
  .ofClauses [
    .rule 0 [([.nonterminal 1], none, total)],
    .rule 1 [([.nonterminal 2, .nonterminal 1, .terminal 1], none, total),
      ([.nonterminal 3, .nonterminal 4], none, total)],
    .rule 2 [([], none, total)],
    .rule 3 [([.terminal 0], none, total)],
    .rule 4 [([.nonterminal 4, .terminal 2], none, total)]]

/-- A sentence `0` is, by way of `1`, either a nonterminal `2` that derives no terminals, with
the empty nonterminal `3` before it, or the terminals `1` and `0` around `3`. -/
def stallingSlr : Grammar Nat Nat Nat :=
  .ofClauses [
    .rule 0 [([.nonterminal 1], none, total)],
    .rule 1 [([.nonterminal 2], none, total),
      ([.terminal 1, .nonterminal 3, .terminal 0], none, total)],
    .rule 2 [([.nonterminal 3, .nonterminal 2, .terminal 2], none, total)],
    .rule 3 [([], none, total)]]

/-- With either method there is a grammar that is fit for a table, without two candidates for
a cell though nothing is vetoed, and a token on which the parser runs forever. -/
theorem parse_runs_forever : (∀ q a, ({} : Policy Nat).reduceOn q a = true) ∧
    stallingLr1.Stalls .lr1 ∧ stallingSlr.Stalls .slr := by
  refine ⟨fun _ _ => rfl, ?_, ?_⟩
  · have single : stallingLr1.isDeterministic .lr1 0 {} 0 = true := by decide +kernel
    exact stalls_of_table [0, 2, 5] rfl single (by decide) (by decide +kernel)
  · have single : stallingSlr.isDeterministic .slr 0 {} 0 = true := by decide +kernel
    exact stalls_of_table [0, 4] rfl single (by decide) (by decide +kernel)

end Grammar

end BottomUp
