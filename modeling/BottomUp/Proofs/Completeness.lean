import BottomUp.Proofs.Determinism
import BottomUp.Proofs.Leading
import BottomUp.Proofs.Soundness

/-!
# Completeness of the parser

A deterministic automaton reads every tree of its grammar.  Let a state hold an item that
waits for the symbol of a tree and expects a lookahead in the end.  A parser in that state
gets over the tree if what follows the tree can begin the rest of the item in front of that
lookahead (`Parser.Covers`).  A leaf is shifted.  A node is read child by child, since the
item demands its production; the tokens of the children not yet read and those behind the
node show what can begin the rest of the production (`Tree.mem_ofSequence_of_isOf`).  After
the last child the production is completed, and it is a candidate on the lookahead, so it is
reduced.

The start production is read in the same way, and then the input is accepted
(`parse_complete`).  The parse is the same for two trees with one frontier, so there is only
one such tree.
-/

namespace BottomUp

variable {K T N V E : Type}

/-! ## What a tree begins with -/

namespace Tree

variable [Ordered T] [Ordered N] {g : Grammar T N V} {r : Reader K T V}

/-- The sequence vanishes or is begun, as the tokens tell. -/
def Opens (g : Grammar T N V) (r : Reader K T V) (symbols : List (Symbol T N)) :
    List K → Prop
  | [] => (FirstSets.of g).Vanishes symbols
  | k :: _ => (FirstSets.of g).Begins (r.terminal k) symbols

theorem opens_cons {s : Symbol T N} {symbols : List (Symbol T N)} {front rest : List K}
    (h : Opens g r [s] front) (hs : Opens g r symbols rest) :
    Opens g r (s :: symbols) (front ++ rest) := by
  cases front with
  | nil =>
      have nullable := (FirstSets.vanishes_cons.mp h).1
      cases rest with
      | nil => exact FirstSets.vanishes_cons.mpr ⟨nullable, hs⟩
      | cons k rest => exact .inr ⟨nullable, hs⟩
  | cons k front =>
      rcases h with h | ⟨_, h⟩
      · exact .inl h
      · exact h.elim

theorem opens_frontiers {ts : List (Tree K)} {symbols : List (Symbol T N)}
    (hs : ts.map (symbol? g r) = symbols.map some)
    (h : ∀ t ∈ ts, ∀ s, t.symbol? g r = some s → Opens g r [s] t.frontier) :
    Opens g r symbols (frontiers ts) := by
  induction ts generalizing symbols with
  | nil =>
      cases symbols with
      | nil =>
          rw [frontiers]
          exact FirstSets.vanishes_nil
      | cons s symbols => cases hs
  | cons t ts ih =>
      cases symbols with
      | nil => cases hs
      | cons s symbols =>
          rw [List.map_cons, List.map_cons, List.cons.injEq] at hs
          rw [frontiers]
          exact opens_cons (h t List.mem_cons_self s hs.1)
            (ih hs.2 fun t ht => h t (List.mem_cons_of_mem _ ht))

theorem IsOf.opens {t : Tree K} (h : t.IsOf g r) :
    ∀ s, t.symbol? g r = some s → Opens g r [s] t.frontier := by
  induction h with
  | leaf k =>
      intro s hs
      cases hs
      rw [frontier]
      exact .inl (SortedSet.mem_ofList.mpr List.mem_cons_self)
  | @node p production children hp hs _ ih =>
      intro s hroot
      rw [symbol?, hp] at hroot
      cases hroot
      have hm := List.mem_of_getElem? hp
      have opens := opens_frontiers hs ih
      rw [frontier]
      cases hf : frontiers children with
      | nil =>
          rw [hf] at opens
          exact FirstSets.vanishes_cons.mpr
            ⟨FirstSets.nullable_of_vanishes hm opens, FirstSets.vanishes_nil⟩
      | cons k rest =>
          rw [hf] at opens
          exact .inl (FirstSets.mem_terminals_of_begins hm opens)

/-- Some trees and what follows them show what their symbols can begin with. -/
theorem mem_ofSequence_of_isOf {ts : List (Tree K)} {symbols : List (Symbol T N)} {w : List K}
    (hs : ts.map (symbol? g r) = symbols.map some) (ht : ∀ t ∈ ts, t.IsOf g r) :
    (frontiers ts ++ w).head?.map r.terminal ∈
      (FirstSets.of g).ofSequence symbols (w.head?.map r.terminal) := by
  have opens := opens_frontiers hs fun t h => (ht t h).opens
  rw [FirstSets.mem_ofSequence]
  cases hf : frontiers ts with
  | nil =>
      rw [hf] at opens
      exact .inr ⟨rfl, opens⟩
  | cons k rest =>
      rw [hf] at opens
      exact .inl ⟨r.terminal k, rfl, opens⟩

end Tree

/-! ## Many steps -/

/-- The stack, and the tokens that are not yet shifted. -/
structure Configuration.At (c : Configuration K V E) (stack : List (Entry V)) (w : List K) :
    Prop where
  stack_eq : c.stack = stack
  token_eq : c.token = w.head?
  input_eq : c.input = w.tail.map .ok

namespace Parser

theorem pull_at {w : List K} {c : Configuration K V E} (h : c.input = w.map .ok) :
    ∃ c', (pull c : Progress K T V E) = .continues c' ∧ c'.At c.stack w := by
  rw [pull]
  cases w with
  | nil =>
      simp only [h, List.map_nil]
      exact ⟨_, rfl, rfl, rfl, rfl⟩
  | cons k w =>
      simp only [h, List.map_cons]
      exact ⟨_, rfl, rfl, rfl, rfl⟩

variable [Ordered T] [Ordered N]

/-- Steps lead from one configuration to the other. -/
inductive Goes (m : Parser K T N V) : Configuration K V E → Configuration K V E → Prop
  | refl {c : Configuration K V E} : Goes m c c
  | step {c c' c'' : Configuration K V E} :
      m.step c = .continues c' → Goes m c' c'' → Goes m c c''

variable {m : Parser K T N V} {c c' c'' : Configuration K V E}

theorem Goes.trans (h : m.Goes c c') (h' : m.Goes c' c'') : m.Goes c c'' := by
  induction h with
  | refl => exact h'
  | step hs _ ih => exact .step hs (ih h')

theorem Goes.exists_run (h : m.Goes c c') {how : Ending K T V E} (he : m.step c' = .ends how c'') :
    ∃ steps, m.run steps (.continues c) = some (how, c'') := by
  induction h with
  | refl =>
      refine ⟨1, ?_⟩
      rw [run, he]
      rfl
  | step hs _ ih =>
      obtain ⟨steps, hr⟩ := ih he
      refine ⟨steps + 1, ?_⟩
      rw [run, hs]
      exact hr

end Parser

/-! ## Getting over trees -/

namespace Parser

variable [Ordered T] [Ordered N]

/-- Wherever an item waits for the symbol of the tree and what follows is as expected, the
parser gets over the tree. -/
def Covers (m : Parser K T N V) (o : Outline T N) (E : Type) (t : Tree K) : Prop :=
  ∀ {i p d : Nat} {s : Symbol T N} {rest : List (Symbol T N)} {a : Lookahead T}
    {stack : List (Entry (Tree K))} {w : List K} {c : Configuration K (Tree K) E},
    t.symbol? m.grammar m.reader = some s → o.Grows m.grammar m.reader i stack →
    o.expects i p d a → (m.grammar.rhs p).drop d = s :: rest →
    w.head?.map m.reader.terminal ∈ (FirstSets.of m.grammar).ofSequence rest a →
    c.At stack (t.frontier ++ w) →
    ∃ j c', o.next? i s = some j ∧ m.toTrees.Goes c c' ∧ c'.At (⟨j, some t⟩ :: stack) w

/-- The table does what is a candidate of a lawful automaton, and nothing is vetoed. -/
structure Follows (m : Parser K T N V) (o : Outline T N) (policy : Policy T) (start : Nat) :
    Prop where
  lawful : o.Lawful m.grammar start
  drives : o.Drives m.grammar start m.table
  permits (p : Nat) (a : Lookahead T) : policy.reduceOn p a = true
  action {i : Nat} {a : Lookahead T} {action : Action T} :
    action ∈ (o.candidates m.grammar policy start i a).actions T → m.table.action? i a = some action

variable {m : Parser K T N V} {o : Outline T N} {policy : Policy T} {start : Nat}

theorem Follows.step_eq (h : m.Follows o policy start) {i : Nat} {stack : List (Entry (Tree K))}
    {w : List K} {c : Configuration K (Tree K) E} {action : Action T}
    (hi : o.Grows m.grammar m.reader i stack) (hc : c.At stack w)
    (ha : action ∈ (o.candidates m.grammar policy start i
      (w.head?.map m.reader.terminal)).actions T) :
    m.toTrees.action? c = some action := by
  have top : m.toTrees.top c.stack = i := by
    rw [hc.stack_eq]
    exact hi.top_eq _
  show m.table.action? (m.toTrees.top c.stack) (c.token.map m.reader.terminal) = some action
  rw [top, hc.token_eq]
  exact h.action ha

theorem Follows.covers_leaf (h : m.Follows o policy start) (k : K) : m.Covers o E (.leaf k) := by
  intro i p d s rest a stack w c hs hi he hr _ hc
  cases hs
  rw [Tree.frontier] at hc
  have hd : (m.grammar.rhs p)[d]? = some (.terminal (m.reader.terminal k)) := by
    rw [← List.head?_drop, hr]
    rfl
  obtain ⟨j, hn⟩ := h.lawful.exists_next (h.lawful.holds_of_expects he) hd
  have action := h.step_eq hi hc (Candidates.shift_mem_actions.mpr hn)
  have step : m.toTrees.step c = m.toTrees.shift j c := by
    rw [Parser.step, action]
  have token : c.token = some k := hc.token_eq
  obtain ⟨c', hp, hc'⟩ := pull_at (T := T) (w := w) (c := { c with
    stack := ⟨j, some (.leaf k)⟩ :: c.stack
    stats := { c.stats with shifts := c.stats.shifts + 1 } }) hc.input_eq
  refine ⟨j, c', hn, .step (step.trans ?_) .refl, ?_⟩
  · rw [shift, token]
    exact hp
  · rw [hc.stack_eq] at hc'
    exact hc'

/-- A part of a production is read child by child. -/
theorem Follows.exists_goes_append (h : m.Follows o policy start) {p : Nat} {w : List K}
    {after : List (Symbol T N)} {a : Lookahead T}
    (hw : w.head?.map m.reader.terminal ∈ (FirstSets.of m.grammar).ofSequence after a) :
    ∀ {ts : List (Tree K)} {symbols : List (Symbol T N)} {i d : Nat}
      {stack : List (Entry (Tree K))} {c : Configuration K (Tree K) E},
      (∀ t ∈ ts, t.IsOf m.grammar m.reader) → (∀ t ∈ ts, m.Covers o E t) →
      ts.map (Tree.symbol? m.grammar m.reader) = symbols.map some →
      (m.grammar.rhs p).drop d = symbols ++ after → o.Grows m.grammar m.reader i stack →
      o.expects i p d a → c.At stack (Tree.frontiers ts ++ w) →
      ∃ j above c', m.toTrees.Goes c c' ∧ c'.At (above ++ stack) w ∧
        o.Grows m.grammar m.reader j (above ++ stack) ∧ o.expects j p (d + symbols.length) a ∧
        above.length = symbols.length ∧ Parser.values above = ts
  | [], [], i, d, stack, c, _, _, _, _, hi, he, hc => by
      rw [Tree.frontiers] at hc
      exact ⟨i, [], c, .refl, hc, hi, he, rfl, rfl⟩
  | t :: ts, s :: symbols, i, d, stack, c, ht, hcovers, hs, hr, hi, he, hc => by
      rw [List.map_cons, List.map_cons, List.cons.injEq] at hs
      have rest : ∀ t ∈ ts, t.IsOf m.grammar m.reader := fun t h => ht t (List.mem_cons_of_mem _ h)
      have first := FirstSets.mem_ofSequence_append (Tree.mem_ofSequence_of_isOf hs.2 rest) hw
      rw [Tree.frontiers, List.append_assoc] at hc
      obtain ⟨j, c₁, hn, hgoes, hc₁⟩ := hcovers t List.mem_cons_self hs.1 hi he hr first hc
      have hd : (m.grammar.rhs p)[d]? = some s := by
        rw [← List.head?_drop, hr]
        rfl
      have hr' : (m.grammar.rhs p).drop (d + 1) = symbols ++ after := by
        rw [← List.drop_drop, hr]
        rfl
      obtain ⟨j', above, c', hgoes', hc', hj', he', hlength, hvalues⟩ :=
        h.exists_goes_append hw rest (fun t h => hcovers t (List.mem_cons_of_mem _ h)) hs.2 hr'
          (hi.push (ht t List.mem_cons_self) hs.1 hn) (h.lawful.expects_next hn he hd) hc₁
      refine ⟨j', above ++ [⟨j, some t⟩], c', hgoes.trans hgoes', ?_, ?_, ?_, ?_, ?_⟩
      · rwa [List.append_assoc]
      · rwa [List.append_assoc]
      · rw [List.length_cons, Nat.add_comm symbols.length, ← Nat.add_assoc]
        exact he'
      · rw [List.length_append, hlength]
        rfl
      · rw [Parser.values_append, hvalues]
        rfl
  | [], _ :: _, _, _, _, _, _, _, hs, _, _, _, _ => by cases hs
  | _ :: _, [], _, _, _, _, _, _, hs, _, _, _, _ => by cases hs

/-- A production is read child by child. -/
theorem Follows.exists_goes (h : m.Follows o policy start) {p : Nat} {w : List K}
    {ts : List (Tree K)} {symbols : List (Symbol T N)} {i d : Nat}
    {stack : List (Entry (Tree K))} {c : Configuration K (Tree K) E}
    (ht : ∀ t ∈ ts, t.IsOf m.grammar m.reader) (hcovers : ∀ t ∈ ts, m.Covers o E t)
    (hs : ts.map (Tree.symbol? m.grammar m.reader) = symbols.map some)
    (hr : (m.grammar.rhs p).drop d = symbols) (hi : o.Grows m.grammar m.reader i stack)
    (he : o.expects i p d (w.head?.map m.reader.terminal))
    (hc : c.At stack (Tree.frontiers ts ++ w)) :
    ∃ j above c', m.toTrees.Goes c c' ∧ c'.At (above ++ stack) w ∧
      o.Grows m.grammar m.reader j (above ++ stack) ∧
      o.expects j p (d + symbols.length) (w.head?.map m.reader.terminal) ∧
      above.length = symbols.length ∧ Parser.values above = ts := by
  rw [← List.append_nil symbols] at hr
  refine h.exists_goes_append ?_ ht hcovers hs hr hi he hc
  exact FirstSets.mem_ofSequence.mpr (.inr ⟨rfl, FirstSets.vanishes_nil⟩)

/-- Where the uppermost entries hold the children of a node, the node is reduced. -/
theorem Follows.reduce_at (h : m.Follows o policy start) {p j k : Nat}
    {production : Production T N V} {above stack : List (Entry (Tree K))} {w : List K}
    {c : Configuration K (Tree K) E} (hp : m.grammar.productions[p]? = some production)
    (hlength : above.length = production.rhs.length) (hi : o.Grows m.grammar m.reader k stack)
    (hn : o.next? k (.nonterminal production.lhs) = some j) (hc : c.At (above ++ stack) w) :
    ∃ c', m.toTrees.reduce p c = .continues c' ∧
      c'.At (⟨j, some (.node p (Parser.values above))⟩ :: stack) w := by
  have hdrop : c.stack.drop production.rhs.length = stack := by
    rw [hc.stack_eq, ← hlength, List.drop_left]
  have htake : c.stack.take production.rhs.length = above := by
    rw [hc.stack_eq, ← hlength, List.take_left]
  have hl : production.rhs.length < c.stack.length := by
    have := hi.length_pos
    rw [hc.stack_eq, List.length_append, hlength]
    omega
  have hbelow : o.Grows m.grammar m.reader k (c.stack.drop production.rhs.length) := hdrop ▸ hi
  refine ⟨_, reduce_toTrees h.drives hp hl hbelow hn, ?_, hc.token_eq, hc.input_eq⟩
  show ⟨j, some (.node p (Parser.values (c.stack.take production.rhs.length)))⟩ ::
    c.stack.drop production.rhs.length = _
  rw [hdrop, htake]

theorem Follows.covers_node (h : m.Follows o policy start) {sym : N}
    (hstart : m.grammar.Starts sym start) {q : Nat} {production : Production T N V}
    {children : List (Tree K)} (hq : m.grammar.productions[q]? = some production)
    (hs : children.map (Tree.symbol? m.grammar m.reader) = production.rhs.map some)
    (ht : ∀ t ∈ children, t.IsOf m.grammar m.reader) (hcovers : ∀ t ∈ children, m.Covers o E t) :
    m.Covers o E (.node q children) := by
  intro i p d s rest a stack w c hroot hi he hr hw hc
  rw [Tree.symbol?, hq] at hroot
  cases hroot
  rw [Tree.frontier] at hc
  have hmem : q ∈ m.grammar.alternatives production.lhs :=
    Grammar.mem_alternatives.mpr ⟨production, hq, rfl⟩
  have hne : q ≠ start := fun he => hstart.not_mem_alternatives hr (he ▸ hmem)
  have he' := h.lawful.expects_demanded he hr hmem hw
  have hrhs : (m.grammar.rhs q).drop 0 = production.rhs := by
    rw [Grammar.rhs_of_getElem? hq, List.drop_zero]
  obtain ⟨k, above, c₁, hgoes, hc₁, hk, hek, hlength, hvalues⟩ :=
    h.exists_goes ht hcovers hs hrhs hi he' hc
  obtain ⟨j, hn⟩ := h.lawful.exists_goto (h.lawful.holds_of_expects he') hne hq
  obtain ⟨c', hreduce, hc'⟩ := h.reduce_at hq hlength hi hn hc₁
  rw [Nat.zero_add, ← Grammar.rhs_of_getElem? hq] at hek
  have action := h.step_eq hk hc₁ (Candidates.reduce_mem_actions.mpr ⟨hne, hek, h.permits _ _⟩)
  rw [hvalues] at hc'
  refine ⟨j, c', hn, hgoes.trans (.step ?_ .refl), hc'⟩
  rw [Parser.step, action]
  exact hreduce

/-- The parser gets over every tree of the grammar. -/
theorem Follows.covers (h : m.Follows o policy start) {sym : N}
    (hstart : m.grammar.Starts sym start) {t : Tree K} (ht : t.IsOf m.grammar m.reader) :
    m.Covers o E t := by
  induction ht with
  | leaf k => exact h.covers_leaf k
  | node hq hs ht ih => exact h.covers_node hstart hq hs ht ih

/-- Where the entries above the first state hold the children of the root, the input is
accepted. -/
theorem Follows.accept_at (h : m.Follows o policy start) {production : Production T N V}
    {above : List (Entry (Tree K))} {w : List K} {c : Configuration K (Tree K) E}
    (hp : m.grammar.productions[start]? = some production)
    (hlength : above.length = production.rhs.length) (hc : c.At (above ++ [⟨0, none⟩]) w) :
    ∃ c', m.toTrees.accept c = .ends (.accepted (.node start (Parser.values above))) c' := by
  have htake : c.stack.take production.rhs.length = above := by
    rw [hc.stack_eq, ← hlength, List.take_left]
  have hl : c.stack.length = production.rhs.length + 1 := by
    rw [hc.stack_eq, List.length_append, hlength]
    rfl
  refine ⟨{ c with stack := c.stack.drop production.rhs.length }, ?_⟩
  rw [accept_toTrees h.drives hp hl, htake]

/-- The parser accepts the frontier of a tree of the start symbol, and computes the tree. -/
theorem Follows.exists_parse (h : m.Follows o policy start) {sym : N}
    (hstart : m.grammar.Starts sym start) {t : Tree K} (ht : t.IsOf m.grammar m.reader)
    (hs : t.symbol? m.grammar m.reader = some (.nonterminal sym)) :
    ∃ steps c, m.toTrees.parse steps (t.frontier.map .ok : List (Except E K)) =
      some (.accepted t, c) := by
  cases ht with
  | leaf k => cases hs
  | @node q production children hq hchildren htrees =>
      rw [Tree.symbol?, hq] at hs
      cases hs
      obtain rfl : q = start := hstart.eq_of_lhs hq rfl
      -- The first state holds the start production, which expects the end of the input.
      obtain ⟨c₀, hbegin, hc₀⟩ := pull_at (T := T) (w := Tree.frontiers children)
        (c := (⟨[⟨0, none⟩], none, (Tree.frontiers children).map .ok, {}, 0⟩ :
          Configuration K (Tree K) E)) rfl
      rw [← List.append_nil (Tree.frontiers children)] at hc₀
      have hrhs : (m.grammar.rhs q).drop 0 = production.rhs := by
        rw [Grammar.rhs_of_getElem? hq, List.drop_zero]
      obtain ⟨j, above, c₁, hgoes, hc₁, hj, hej, hlength, hvalues⟩ :=
        h.exists_goes (w := []) htrees (fun t ht => h.covers hstart (htrees t ht)) hchildren hrhs
          .bottom h.lawful.expects_zero hc₀
      rw [Nat.zero_add, ← Grammar.rhs_of_getElem? hq] at hej
      have action := h.step_eq hj hc₁ (Candidates.accept_mem_actions.mpr ⟨rfl, hej⟩)
      obtain ⟨c', haccept⟩ := h.accept_at hq hlength hc₁
      rw [hvalues] at haccept
      have step : m.toTrees.step c₁ = .ends (.accepted (.node q children)) c' := by
        rw [Parser.step, action]
        exact haccept
      obtain ⟨steps, hrun⟩ := hgoes.exists_run step
      refine ⟨steps, c', ?_⟩
      have start_eq : m.toTrees.table.start = 0 := h.drives.start_eq
      rw [parse, begin, Tree.frontier, start_eq, hbegin]
      exact hrun

end Parser

/-! ## Completeness -/

namespace Parser

variable [Ordered T] [Ordered N] {m : Parser K T N V}

/-- With more steps a run ends in the same way. -/
theorem run_mono {how : Ending K T V E} {c : Configuration K V E} {p : Progress K T V E} :
    ∀ {steps more : Nat}, steps ≤ more → m.run steps p = some (how, c) →
      m.run more p = some (how, c) := by
  intro steps
  induction steps generalizing p with
  | zero =>
      intro more _ h
      cases p with
      | continues c => cases h
      | ends how c =>
          cases more with
          | zero => exact h
          | succ more => exact h
  | succ steps ih =>
      intro more hle h
      cases p with
      | continues c =>
          cases more with
          | zero => exact absurd hle (Nat.not_succ_le_zero steps)
          | succ more =>
              show m.run more (m.step c) = _
              exact ih (Nat.le_of_succ_le_succ hle) h
      | ends how c =>
          cases more with
          | zero => exact h
          | succ more => exact h

/-- A parse has one ending and leaves one configuration. -/
theorem parse_eq {steps steps' : Nat} {input : List (Except E K)} {how how' : Ending K T V E}
    {c c' : Configuration K V E} (h : m.parse steps input = some (how, c))
    (h' : m.parse steps' input = some (how', c')) : how = how' ∧ c = c' := by
  have first := run_mono (Nat.le_max_left steps steps') h
  have second := run_mono (Nat.le_max_right steps steps') h'
  cases first.symm.trans second
  exact ⟨rfl, rfl⟩

/-- A parse has one ending. -/
theorem parse_unique {steps steps' : Nat} {input : List (Except E K)}
    {how how' : Ending K T V E} {c c' : Configuration K V E}
    (h : m.parse steps input = some (how, c)) (h' : m.parse steps' input = some (how', c')) :
    how = how' :=
  (parse_eq h h').1

/-- What is accepted are the frontiers of the trees of the start symbol, with their values. -/
theorem Follows.accepts_iff {o : Outline T N} {policy : Policy T} {start : Nat}
    (h : m.Follows o policy start) {sym : N} (hstart : m.grammar.Starts sym start)
    {input : List (Except E K)} {v : V} :
    (∃ steps c, m.parse steps input = some (.accepted v, c)) ↔
      ∃ t : Tree K, t.IsOf m.grammar m.reader ∧
        t.symbol? m.grammar m.reader = some (.nonterminal sym) ∧
        input = t.frontier.map .ok ∧ t.value? m.grammar m.reader = some v := by
  constructor
  · rintro ⟨steps, c, hp⟩
    obtain ⟨how, ct, hrun, hh, _⟩ := parse_shows hp
    have hf := run_sound h.lawful h.drives (begin_sound h.drives input) hrun
    cases hh with
    | accepted hvalue =>
        cases hf with
        | accepted tree hi _ =>
            obtain ⟨production, hg, rfl⟩ := hstart.exists_production
            refine ⟨_, tree, ?_, ?_, hvalue⟩
            · rw [Tree.symbol?, hg]
              rfl
            · rw [Tree.frontier]
              exact hi
  · rintro ⟨t, tree, root, rfl, hvalue⟩
    obtain ⟨steps, c, hp⟩ := h.exists_parse (E := E) hstart tree root
    rcases run_shows (begin_shows m _) steps with
      ⟨_, _, how, c', htrees, hvalues, hh, _⟩ | ⟨hnone, _⟩
    · cases hp.symm.trans htrees
      cases hh with
      | accepted hv =>
          cases hv.symm.trans hvalue
          exact ⟨steps, c', hvalues⟩
    · cases hp.symm.trans hnone

end Parser

/-- For every grammar that is fit for a table, both methods and every policy that vetoes
nothing: if no cell has two candidates, there is a table without conflicts, a parser with it
accepts the frontier of every tree of the start symbol with the value of the tree, and no
other tree of the start symbol has that frontier. -/
theorem Grammar.parse_complete [Ordered T] [Ordered N] {g : Grammar T N V} {start : N} {p : Nat}
    (hv : g.validate start = .ok p) (method : Method) {policy : Policy T}
    (permits : ∀ q a, policy.reduceOn q a = true)
    (single : (g.outline method start p).Deterministic g policy p) :
    ∃ table, (g.compile method start policy).table = .ok table ∧ table.conflicts = [] ∧
      ∀ (r : Reader K T V) (t : Tree K), t.IsOf g r → t.symbol? g r = some (.nonterminal start) →
        (∃ steps v c, t.value? g r = some v ∧
          (⟨g, table, r⟩ : Parser K T N V).parse steps (t.frontier.map .ok : List (Except E K)) =
            some (.accepted v, c)) ∧
        ∀ u : Tree K, u.IsOf g r → u.symbol? g r = some (.nonterminal start) →
          u.frontier = t.frontier → u = t := by
  have hs := starts_of_validate hv
  have ho := lawful_outline hs method
  obtain ⟨table, verdict, ht, hr, hc⟩ := exists_table_of_deterministic hv single
  refine ⟨table, ht, hc, fun r t tree root => ?_⟩
  have follows : (⟨g, table, r⟩ : Parser K T N V).Follows (g.outline method start p) policy p :=
    ⟨ho, hr.drives, permits, hr.action_eq ho single⟩
  obtain ⟨steps, c, hp⟩ := follows.exists_parse (E := E) hs tree root
  constructor
  · rcases Parser.run_shows (Parser.begin_shows ⟨g, table, r⟩ _) steps with
      ⟨_, _, how, c', htrees, hvalues, hh, _⟩ | ⟨hnone, _⟩
    · cases hp.symm.trans htrees
      cases hh with
      | accepted hv => exact ⟨steps, _, c', hv, hvalues⟩
    · cases hp.symm.trans hnone
  · intro u tree' root' frontier
    obtain ⟨steps', c', hp'⟩ := follows.exists_parse (E := E) hs tree' root'
    rw [frontier] at hp'
    cases Parser.parse_unique hp' hp
    rfl

/-- Lists: a sentence `0` is a list `1`, and a list is a list with the terminal `0` behind it,
or nothing. -/
def Grammar.lists : Grammar Nat Nat Nat :=
  .ofClauses [
    .rule 0 [([.nonterminal 1], none, total)],
    .rule 1 [([.nonterminal 1, .terminal 0], none, total), ([], none, total)]]

/-- A list of one terminal is read, and it has one tree. -/
theorem Grammar.parse_lists : ∃ table, (lists.compile .slr 0 {}).table = .ok table ∧
    table.conflicts = [] ∧
    (∃ steps v c, (Tree.node 0 [.node 1 [.node 2 [], .leaf 0]]).value? lists ones = some v ∧
      (⟨lists, table, ones⟩ : Parser Nat Nat Nat Nat).parse steps
        ([0].map .ok : List (Except Empty Nat)) = some (.accepted v, c)) ∧
    ∀ u : Tree Nat, u.IsOf lists ones → u.symbol? lists ones = some (.nonterminal 0) →
      u.frontier = [0] → u = .node 0 [.node 1 [.node 2 [], .leaf 0]] := by
  have hv : lists.validate 0 = .ok 0 := by rfl
  have single : lists.isDeterministic .slr 0 {} 0 = true := by decide +kernel
  obtain ⟨table, ht, hc, complete⟩ := parse_complete (K := Nat) (E := Empty) hv .slr
    (fun _ _ => rfl) (deterministic_of_isDeterministic hv single)
  have nothing : (Tree.node 2 [] : Tree Nat).IsOf lists ones := .node rfl rfl (by simp)
  have list : (Tree.node 1 [.node 2 [], .leaf 0]).IsOf lists ones := by
    refine .node rfl rfl ?_
    simp [nothing, Tree.IsOf.leaf]
  have tree : (Tree.node 0 [.node 1 [.node 2 [], .leaf 0]]).IsOf lists ones := by
    refine .node rfl rfl ?_
    simp [list]
  obtain ⟨parses, unique⟩ := complete ones _ tree rfl
  have frontier : (Tree.node 0 [.node 1 [.node 2 [], .leaf 0]]).frontier = [0] := by
    simp [Tree.frontier, Tree.frontiers]
  rw [frontier] at parses unique
  exact ⟨table, ht, hc, parses, unique⟩

end BottomUp
