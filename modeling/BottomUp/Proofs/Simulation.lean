import BottomUp.Parser.Trace
import BottomUp.Proofs.Completeness
import BottomUp.Proofs.ValidItems

/-!
# Parsers in lockstep

An outline *refines* another if each string that labels a path of the one labels a path of
the other, and whatever is expected where it leads is expected there too.  Then each
candidate of a cell of the one has its like in the other.  So the one is deterministic if
the other is (`Refines.deterministic`).

A parser with a table of the one outline is then *shadowed* by a parser whose table does
whatever is a candidate of the other (`Parser.Shadows`).  As long as the first parser goes
on the second one makes the same moves, on stacks that go along the same symbols
(`Shadows.step`).  Only terminals matter for that, so the two may read different tokens.
-/

namespace BottomUp

variable {K K' T N V E : Type}

/-! ## Moves -/

/-- What a step does, apart from the states it enters. -/
inductive Move where
  /-- The token is put on the stack. -/
  | shift
  /-- A production is reduced. -/
  | reduce (p : Nat)
  /-- The input is accepted. -/
  | accept
deriving DecidableEq

/-- The move of an action, if it is not an error. -/
def Action.move? : Action T → Option Move
  | .shift _ => some .shift
  | .reduce p => some (.reduce p)
  | .accept => some .accept
  | .error _ _ _ => none

/-- The move that an event announces. -/
def Event.move? : Event K N → Option Move
  | .shift _ => some .shift
  | .reduce p _ => some (.reduce p)
  | .accept _ _ => some .accept
  | .error _ => none
  | .stack _ _ => none

/-- The moves of a parse of at most so many steps, as its trace tells them. -/
def Parser.moves [Ordered T] [Ordered N] (m : Parser K T N V) (steps : Nat)
    (input : List (Except E K)) : List Move :=
  (m.events steps input).filterMap Event.move?

/-- No two candidates of a cell have the same move. -/
theorem Candidates.eq_of_move? {c : Candidates} {x y : Action T} (hx : x ∈ c.actions T)
    (hy : y ∈ c.actions T) (h : x.move? = y.move?) : x = y := by
  cases x with
  | error _ _ _ => exact absurd hx error_not_mem_actions
  | shift i =>
      cases y with
      | shift j =>
          have := (shift_mem_actions.mp hx).symm.trans (shift_mem_actions.mp hy)
          rw [Option.some.inj this]
      | reduce _ => cases h
      | accept => cases h
      | error _ _ _ => cases h
  | reduce p =>
      cases y with
      | reduce q =>
          cases h
          rfl
      | shift _ => cases h
      | accept => cases h
      | error _ _ _ => cases h
  | accept =>
      cases y with
      | accept => rfl
      | shift _ => cases h
      | reduce _ => cases h
      | error _ _ _ => cases h

/-! ## Outlines that refine others -/

namespace Outline

/-- Where a string leads in the one outline it leads in the other, to a state that expects
no less. -/
def Refines (o o' : Outline T N) : Prop :=
  ∀ ⦃γ : List (Symbol T N)⦄ ⦃i : Nat⦄, o.Spells γ i →
    ∃ j, o'.Spells γ j ∧ ∀ p d a, o.expects i p d a → o'.expects j p d a

theorem Refines.refl (o : Outline T N) : o.Refines o := fun _ i h => ⟨i, h, fun _ _ _ => id⟩

section

variable {o o' : Outline T N} {γ : List (Symbol T N)} {i j : Nat}

theorem Refines.expects (h : o.Refines o') (hi : o.Spells γ i) (hj : o'.Spells γ j) {p d : Nat}
    {a : Lookahead T} (he : o.expects i p d a) : o'.expects j p d a := by
  obtain ⟨k, hk, all⟩ := h hi
  exact hk.unique hj ▸ all p d a he

theorem Refines.exists_next (h : o.Refines o') (hi : o.Spells γ i) (hj : o'.Spells γ j)
    {s : Symbol T N} {i' : Nat} (hn : o.next? i s = some i') : ∃ j', o'.next? j s = some j' := by
  obtain ⟨j', hj', _⟩ := h (hi.concat hn)
  obtain ⟨k, hk, hn'⟩ := spells_concat.mp hj'
  exact ⟨j', hk.unique hj ▸ hn'⟩

end

variable [Ordered T] [Ordered N] {g : Grammar T N V} {policy : Policy T} {start : Nat}
  {o o' : Outline T N} {γ : List (Symbol T N)} {i j : Nat}

omit [Ordered T] [Ordered N] in
/-- A candidate has its like in the other outline. -/
theorem Refines.exists_candidate (h : o.Refines o') (hi : o.Spells γ i) (hj : o'.Spells γ j)
    {a : Lookahead T} {x : Action T} (hx : x ∈ (o.candidates g policy start i a).actions T) :
    ∃ y ∈ (o'.candidates g policy start j a).actions T, y.move? = x.move? := by
  cases x with
  | shift i' =>
      obtain ⟨t, rfl, hn⟩ := Option.bind_eq_some_iff.mp (Candidates.shift_mem_actions.mp hx)
      obtain ⟨j', hn'⟩ := h.exists_next hi hj hn
      exact ⟨.shift j', Candidates.shift_mem_actions.mpr hn', rfl⟩
  | reduce p =>
      obtain ⟨hne, he, hp⟩ := Candidates.reduce_mem_actions.mp hx
      exact ⟨.reduce p, Candidates.reduce_mem_actions.mpr ⟨hne, h.expects hi hj he, hp⟩, rfl⟩
  | accept =>
      obtain ⟨ha, he⟩ := Candidates.accept_mem_actions.mp hx
      exact ⟨.accept, Candidates.accept_mem_actions.mpr ⟨ha, h.expects hi hj he⟩, rfl⟩
  | error _ _ _ => exact absurd hx Candidates.error_not_mem_actions

/-- What refines a deterministic outline is deterministic, if a path leads to every state. -/
theorem Refines.deterministic (h : o.Refines o') (ho : o.Lawful g start)
    (reached : ∀ i < o.size, ∃ γ, o.Spells γ i) (single : o'.Deterministic g policy start) :
    o.Deterministic g policy start := by
  intro i a x hx y hy
  obtain ⟨γ, hi⟩ := reached i (mem_scan.mp (ho.mem_scan_of_mem_actions hx)).1
  obtain ⟨j, hj, _⟩ := h hi
  obtain ⟨x', hx', ex⟩ := h.exists_candidate hi hj hx
  obtain ⟨y', hy', ey⟩ := h.exists_candidate hi hj hy
  have same : x' = y' := single j a hx' hy'
  exact Candidates.eq_of_move? hx hy (ex.symm.trans ((congrArg Action.move? same).trans ey))

/-- A path to a state that holds an item ends with what the item has read. -/
theorem Lawful.exists_spells_of_holds (ho : o.Lawful g start) {p d : Nat} (hi : o.Spells γ i)
    (h : o.holds i p d) :
    ∃ left k, γ = left ++ (g.rhs p).take d ∧ o.Spells left k ∧ o.holds k p 0 := by
  induction d generalizing γ i with
  | zero => exact ⟨γ, i, by simp, hi, h⟩
  | succ d ih =>
      cases hi with
      | nil => cases ho.dot_eq_zero h
      | concat hk hn =>
          obtain ⟨hb, hs⟩ := ho.back hn h
          obtain ⟨left, k, rfl, hl, h0⟩ := ih hk hb
          refine ⟨left, k, ?_, hl, h0⟩
          rw [List.take_add_one, hs, Option.toList_some, List.append_assoc]

/-! ## Stacks along paths -/

/-- The states of the stack are those of a path, up to the state on its top. -/
inductive Carries (o : Outline T N) : List (Symbol T N) → Nat → List (Entry V) → Prop
  | bottom : Carries o [] 0 [⟨0, none⟩]
  | push {γ : List (Symbol T N)} {i j : Nat} {stack : List (Entry V)} {s : Symbol T N}
      {value? : Option V} : Carries o γ i stack → o.next? i s = some j →
      Carries o (γ ++ [s]) j (⟨j, value?⟩ :: stack)

namespace Carries

variable {stack : List (Entry V)}

omit [Ordered T] [Ordered N] in
theorem spells (h : o.Carries γ i stack) : o.Spells γ i := by
  induction h with
  | bottom => exact .nil
  | push _ hn ih => exact ih.concat hn

theorem top_eq (h : o.Carries γ i stack) (m : Parser K T N V) : m.top stack = i := by
  cases h with
  | bottom => rfl
  | push _ _ => rfl

omit [Ordered T] [Ordered N] in
theorem length_eq (h : o.Carries γ i stack) : stack.length = γ.length + 1 := by
  induction h with
  | bottom => rfl
  | push _ _ ih => rw [List.length_cons, ih, List.length_append, List.length_singleton]

omit [Ordered T] [Ordered N] in
theorem drop (symbols : List (Symbol T N)) : ∀ {i : Nat} {stack : List (Entry V)},
    o.Carries (γ ++ symbols) i stack → ∃ k, o.Carries γ k (stack.drop symbols.length) := by
  induction symbols using List.reverseRecOn with
  | nil =>
      intro i stack h
      rw [List.append_nil] at h
      exact ⟨i, h⟩
  | append_singleton symbols s ih =>
      intro i stack h
      generalize hw : γ ++ (symbols ++ [s]) = whole at h
      cases h with
      | bottom => simp at hw
      | push h _ =>
          rw [← List.append_assoc] at hw
          obtain ⟨rfl, _⟩ := List.append_inj' hw rfl
          rw [List.length_append, List.length_singleton, List.drop_succ_cons]
          exact ih h

end Carries

end Outline

/-! ## One parser alone -/

namespace Parser

variable [Ordered T] [Ordered N] {m : Parser K T N V} {o : Outline T N} {start i : Nat}
  {γ : List (Symbol T N)} {c : Configuration K V E}

/-- A reduction puts the left-hand side in the place of the right-hand side. -/
theorem exists_reduce (ho : o.Lawful m.grammar start) (hd : o.Drives m.grammar start m.table)
    (hc : o.Carries γ i c.stack) {p : Nat} (hne : p ≠ start)
    (hp : o.holds i p (m.grammar.rhs p).length) :
    ∃ production left k j, m.grammar.productions[p]? = some production ∧
      γ = left ++ production.rhs ∧ o.Carries left k (c.stack.drop production.rhs.length) ∧
      o.next? k (.nonterminal production.lhs) = some j ∧
      m.reduce p c = .continues { c with
        stack := ⟨j, some (production.act (values (c.stack.take production.rhs.length)))⟩ ::
          c.stack.drop production.rhs.length
        stats := { c.stats with reductions := c.stats.reductions + 1 } } := by
  obtain ⟨production, hg, _⟩ := ho.exists_production hp
  obtain ⟨left, k, hγ, hk, h0⟩ := ho.exists_spells_of_holds hc.spells hp
  rw [Grammar.rhs_of_getElem? hg, List.take_length] at hγ
  subst hγ
  obtain ⟨k', hbelow⟩ := hc.drop production.rhs
  obtain rfl := hbelow.spells.unique hk
  obtain ⟨j, hn⟩ := ho.exists_goto h0 hne hg
  have enough : production.rhs.length < c.stack.length := by
    rw [hc.length_eq, List.length_append]
    omega
  have goto : m.table.goto? (m.top (c.stack.drop production.rhs.length)) production.lhs =
      some j := by
    rw [hbelow.top_eq, hd.goto, hn]
  exact ⟨production, left, k', j, hg, rfl, hbelow, hn,
    reduce_eq (getElem?_productions_of_drives hd hg) hg enough goto⟩

/-- The move that is announced is that of the action. -/
theorem filterMap_announce (ho : o.Lawful m.grammar start)
    (hd : o.Drives m.grammar start m.table) :
    (m.announce c).filterMap Event.move? = ((m.action? c).bind Action.move?).toList := by
  have listed {j p d : Nat} (h : o.holds j p d) : ∃ production info,
      m.grammar.productions[p]? = some production ∧ m.table.productions[p]? = some info := by
    obtain ⟨production, hp, _⟩ := ho.exists_production h
    exact ⟨production, _, hp, getElem?_productions_of_drives hd hp⟩
  rw [announce]
  cases ha : m.action? c with
  | none => rfl
  | some action =>
      cases action with
      | shift j => rfl
      | reduce p =>
          obtain ⟨_, info, _, hi⟩ := listed (ho.holds_of_expects (hd.reduce ha).2)
          simp only [hi]
          rfl
      | accept =>
          obtain ⟨production, info, hp, hi⟩ := listed (ho.holds_of_expects (hd.accept ha).2)
          rw [hd.startProduction]
          simp only [hi, hp]
          rfl
      | error message conflicts ahead => rfl

/-- A move by a table is a candidate of the automaton that drives it, if nothing is vetoed. -/
theorem mem_actions_of_move? (hd : o.Drives m.grammar start m.table) {policy : Policy T}
    (permits : ∀ p a, policy.reduceOn p a = true) {a : Lookahead T} {action : Action T}
    {move : Move} (ha : m.table.action? i a = some action) (hm : action.move? = some move) :
    action ∈ (o.candidates m.grammar policy start i a).actions T := by
  cases action with
  | shift j => exact Candidates.shift_mem_actions.mpr (Option.bind_eq_some_iff.mpr (hd.shift ha))
  | reduce p =>
      obtain ⟨hne, he⟩ := hd.reduce ha
      exact Candidates.reduce_mem_actions.mpr ⟨hne, he, permits p a⟩
  | accept => exact Candidates.accept_mem_actions.mpr (hd.accept ha)
  | error _ _ _ => cases hm

theorem not_continues_of_accept {d : Configuration K V E} : m.accept c ≠ .continues d := by
  intro h
  rw [accept] at h
  split at h
  · split at h
    · cases h
    · split at h
      · cases h
      · cases h
  · cases h

/-- A parser without a move does not go on. -/
theorem exists_move_of_step {d : Configuration K V E} (h : m.step c = .continues d) :
    ∃ action move, m.action? c = some action ∧ action.move? = some move := by
  rw [step] at h
  cases ha : m.action? c with
  | none =>
      rw [ha] at h
      cases h
  | some action =>
      cases action with
      | shift j => exact ⟨_, _, rfl, rfl⟩
      | reduce p => exact ⟨_, _, rfl, rfl⟩
      | accept => exact ⟨_, _, rfl, rfl⟩
      | error message conflicts ahead =>
          rw [ha] at h
          cases h

end Parser

/-! ## Two parsers -/

/-- The terminals of a stream of tokens. -/
def Reader.stream (r : Reader K T V) (input : List (Except E K)) : List (Except E T) :=
  input.map (Except.map r.terminal)

/-- The stacks go along the same symbols, and the same terminals are still to be read. -/
structure Configuration.Alike (o o' : Outline T N) (r : Reader K T V) (r' : Reader K' T V)
    (c : Configuration K V E) (c' : Configuration K' V E) : Prop where
  path : ∃ γ i j, o.Carries γ i c.stack ∧ o'.Carries γ j c'.stack
  token : c.token.map r.terminal = c'.token.map r'.terminal
  input : r.stream c.input = r'.stream c'.input

/-- Both parses go on alike, or both end. -/
inductive Progress.Alike (o o' : Outline T N) (r : Reader K T V) (r' : Reader K' T V) :
    Progress K T V E → Progress K' T V E → Prop
  | continues {c : Configuration K V E} {c' : Configuration K' V E} :
      c.Alike o o' r r' c' → Alike o o' r r' (.continues c) (.continues c')
  | ends {how : Ending K T V E} {how' : Ending K' T V E} {c : Configuration K V E}
      {c' : Configuration K' V E} : Alike o o' r r' (.ends how c) (.ends how' c')

namespace Parser

theorem pull_alike {o o' : Outline T N} {r : Reader K T V} {r' : Reader K' T V}
    {c : Configuration K V E} {c' : Configuration K' V E}
    (path : ∃ γ i j, o.Carries γ i c.stack ∧ o'.Carries γ j c'.stack)
    (input : r.stream c.input = r'.stream c'.input) :
    Progress.Alike o o' r r' (pull c) (pull c') := by
  obtain ⟨stack, token, rest, stats, pulls⟩ := c
  obtain ⟨stack', token', rest', stats', pulls'⟩ := c'
  cases rest with
  | nil =>
      cases rest' with
      | nil => exact .continues ⟨path, rfl, rfl⟩
      | cons _ _ => cases input
  | cons item rest =>
      cases rest' with
      | nil => cases input
      | cons item' rest' =>
          obtain ⟨same, later⟩ := List.cons.inj input
          cases item with
          | ok k =>
              cases item' with
              | ok k' =>
                  have token : r.terminal k = r'.terminal k' := Except.ok.inj same
                  exact .continues ⟨path, congrArg some token, later⟩
              | error _ => cases same
          | error e =>
              cases item' with
              | ok _ => cases same
              | error e' => exact .ends

variable [Ordered T] [Ordered N]

/-- The second parser does whatever is a candidate of an outline that the outline of the
first one refines. -/
structure Shadows (m' : Parser K' T N V) (m : Parser K T N V) (o' o : Outline T N)
    (policy : Policy T) (start : Nat) : Prop where
  grammar : m'.grammar = m.grammar
  lawful : o.Lawful m.grammar start
  drives : o.Drives m.grammar start m.table
  refines : o.Refines o'
  follows : m'.Follows o' policy start

namespace Shadows

variable {m' : Parser K' T N V} {m : Parser K T N V} {o' o : Outline T N} {policy : Policy T}
  {start : Nat} {c : Configuration K V E} {c' : Configuration K' V E}

theorem begin_alike (h : m'.Shadows m o' o policy start) {input : List (Except E K)}
    {input' : List (Except E K')} (hi : m.reader.stream input = m'.reader.stream input') :
    Progress.Alike o o' m.reader m'.reader (m.begin input) (m'.begin input') := by
  rw [begin, begin, h.drives.start_eq, h.follows.drives.start_eq]
  exact pull_alike ⟨[], 0, 0, .bottom, .bottom⟩ hi

/-- The second parser makes the move of the first one. -/
theorem exists_action (h : m'.Shadows m o' o policy start)
    (hc : c.Alike o o' m.reader m'.reader c') {action : Action T} {move : Move}
    (ha : m.action? c = some action) (hm : action.move? = some move) :
    ∃ action', m'.action? c' = some action' ∧ action'.move? = some move := by
  obtain ⟨γ, i, j, hi, hj⟩ := hc.path
  rw [action?, hi.top_eq] at ha
  have candidate := mem_actions_of_move? h.drives h.follows.permits ha hm
  obtain ⟨action', hy, same⟩ := h.refines.exists_candidate hi.spells hj.spells candidate
  rw [← h.grammar] at hy
  refine ⟨action', ?_, same.trans hm⟩
  rw [action?, hj.top_eq, ← hc.token]
  exact h.follows.action hy

theorem shift_alike (h : m'.Shadows m o' o policy start)
    (hc : c.Alike o o' m.reader m'.reader c') {i j : Nat} (ha : m.action? c = some (.shift i))
    (ha' : m'.action? c' = some (.shift j)) :
    Progress.Alike o o' m.reader m'.reader (m.shift i c) (m'.shift j c') := by
  obtain ⟨γ, k, k', hk, hk'⟩ := hc.path
  rw [action?, hk.top_eq] at ha
  rw [action?, hk'.top_eq, ← hc.token] at ha'
  obtain ⟨t, ht, hn⟩ := h.drives.shift ha
  obtain ⟨t', ht', hn'⟩ := h.follows.drives.shift ha'
  obtain rfl : t = t' := Option.some.inj (ht.symm.trans ht')
  exact pull_alike ⟨_, i, j, hk.push hn, hk'.push hn'⟩ hc.input

theorem reduce_alike (h : m'.Shadows m o' o policy start)
    (hc : c.Alike o o' m.reader m'.reader c') {p : Nat} (ha : m.action? c = some (.reduce p))
    (ha' : m'.action? c' = some (.reduce p)) :
    Progress.Alike o o' m.reader m'.reader (m.reduce p c) (m'.reduce p c') := by
  obtain ⟨γ, i, j, hi, hj⟩ := hc.path
  rw [action?, hi.top_eq] at ha
  rw [action?, hj.top_eq] at ha'
  obtain ⟨hne, he⟩ := h.drives.reduce ha
  obtain ⟨_, he'⟩ := h.follows.drives.reduce ha'
  obtain ⟨production, left, k, _, hp, hγ, below, hn, step⟩ :=
    exists_reduce h.lawful h.drives hi hne (h.lawful.holds_of_expects he)
  obtain ⟨production', left', k', _, hp', hγ', below', hn', step'⟩ :=
    exists_reduce h.follows.lawful h.follows.drives hj hne (h.follows.lawful.holds_of_expects he')
  -- both put the same left-hand side in the place of the same right-hand side
  rw [h.grammar, hp] at hp'
  cases hp'
  obtain rfl : left = left' := List.append_cancel_right (hγ.symm.trans hγ')
  rw [step, step']
  exact .continues ⟨⟨_, _, _, below.push hn, below'.push hn'⟩, hc.token, hc.input⟩

/-- As long as the first parser goes on, so does the second one, alike. -/
theorem step (h : m'.Shadows m o' o policy start) (hc : c.Alike o o' m.reader m'.reader c')
    {d : Configuration K V E} (hs : m.step c = .continues d) :
    ∃ d', m'.step c' = .continues d' ∧ d.Alike o o' m.reader m'.reader d' := by
  have goes {p : Progress K' T V E} (hp : Progress.Alike o o' m.reader m'.reader (.continues d) p) :
      ∃ d', p = .continues d' ∧ d.Alike o o' m.reader m'.reader d' := by
    cases hp with
    | continues hd => exact ⟨_, rfl, hd⟩
  obtain ⟨action, move, ha, hm⟩ := exists_move_of_step hs
  obtain ⟨action', ha', hm'⟩ := h.exists_action hc ha hm
  rw [Parser.step, ha] at hs
  rw [Parser.step, ha']
  have same : action'.move? = action.move? := hm'.trans hm.symm
  cases action with
  | shift i =>
      cases action' with
      | shift j => exact goes (hs ▸ h.shift_alike hc ha ha')
      | reduce _ => cases same
      | accept => cases same
      | error _ _ _ => cases same
  | reduce p =>
      cases action' with
      | reduce q =>
          cases same
          exact goes (hs ▸ h.reduce_alike hc ha ha')
      | shift _ => cases same
      | accept => cases same
      | error _ _ _ => cases same
  | accept => exact absurd hs not_continues_of_accept
  | error _ _ _ => cases hm

/-- A parse ends if the parse that shadows it ends. -/
theorem exists_run (h : m'.Shadows m o' o policy start) {p : Progress K T V E}
    {p' : Progress K' T V E} (hp : Progress.Alike o o' m.reader m'.reader p p') {steps : Nat}
    {ending : Ending K' T V E × Configuration K' V E} (hr : m'.run steps p' = some ending) :
    ∃ ending, m.run steps p = some ending := by
  induction steps generalizing p p' with
  | zero =>
      cases hp with
      | continues _ => cases hr
      | ends => exact ⟨_, rfl⟩
  | succ steps ih =>
      cases hp with
      | ends => exact ⟨_, rfl⟩
      | @continues c c' hc =>
          cases hs : m.step c with
          | ends how d =>
              refine ⟨(how, d), ?_⟩
              rw [run, hs]
              cases steps <;> rfl
          | continues d =>
              obtain ⟨d', hs', hd⟩ := h.step hc hs
              rw [run, hs'] at hr
              rw [run, hs]
              exact ih (.continues hd) hr

theorem filterMap_eventsFrom (h : m'.Shadows m o' o policy start) (steps : Nat) :
    ∀ {c : Configuration K V E} {c' : Configuration K' V E}, c.Alike o o' m.reader m'.reader c' →
      (m.eventsFrom steps c).filterMap Event.move? <+:
        (m'.eventsFrom steps c').filterMap Event.move? := by
  induction steps with
  | zero => exact fun _ => List.prefix_rfl
  | succ steps ih =>
      intro c c' hc
      simp only [eventsFrom, List.filterMap_append, filterMap_announce h.lawful h.drives,
        filterMap_announce h.follows.lawful h.follows.drives]
      cases hmove : (m.action? c).bind Action.move? with
      | none =>
          cases hs : m.step c with
          | ends how d => exact List.nil_prefix
          | continues d =>
              obtain ⟨action, move, ha, hm⟩ := exists_move_of_step hs
              rw [ha, Option.bind_some, hm] at hmove
              cases hmove
      | some move =>
          obtain ⟨action, ha, hm⟩ := Option.bind_eq_some_iff.mp hmove
          obtain ⟨action', ha', hm'⟩ := h.exists_action hc ha hm
          rw [ha', Option.bind_some, hm', List.prefix_append_right_inj]
          cases hs : m.step c with
          | ends how d => exact List.nil_prefix
          | continues d =>
              obtain ⟨d', hs', hd⟩ := h.step hc hs
              rw [hs']
              exact ih hd

/-- The moves of a parse are the first moves of the parse that shadows it. -/
theorem moves_prefix (h : m'.Shadows m o' o policy start) {input : List (Except E K)}
    {input' : List (Except E K')} (hi : m.reader.stream input = m'.reader.stream input')
    (steps : Nat) : m.moves steps input <+: m'.moves steps input' := by
  rw [moves, moves, events, events]
  have both := h.begin_alike hi
  generalize m.begin input = p at both
  generalize m'.begin input' = p' at both
  cases both with
  | ends => exact List.prefix_rfl
  | continues hc => exact h.filterMap_eventsFrom steps hc

end Shadows

end Parser

end BottomUp
