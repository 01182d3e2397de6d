import BottomUp.Proofs.Driving
import BottomUp.Proofs.Trees

/-!
# Soundness of the parser

While a parser computes trees with a table that an automaton drives, its stack *grows* along
the transitions of the automaton (`Outline.Grows`): below each state but the first one is
the state that a symbol leads from, and the entry holds a tree of the grammar for that
symbol.

An item that has read `d` symbols can be followed down the stack.  Each of its symbols is
that of the tree next down, so the uppermost `d` trees spell what the item has read, and the
state below them holds the item with nothing read (`Grows.pop`).  So a reduction finds its
right-hand side and its goto, and the input is accepted above the first state only.

The trees on the stack, the token ahead and the rest of the stream make up the input, and
they say how many shifts and reductions there were (`Outline.Keeps`).  A step keeps all that
(`step_sound`), whatever the table does about conflicts.
-/

namespace BottomUp

variable {K T N V E : Type}

namespace Parser

@[simp] theorem values_nil : values ([] : List (Entry V)) = [] :=
  rfl

theorem values_append (above below : List (Entry V)) :
    values (above ++ below) = values below ++ values above := by
  simp [values]

theorem values_cons_some (j : Nat) (v : V) (stack : List (Entry V)) :
    values (⟨j, some v⟩ :: stack) = values stack ++ [v] := by
  simp [values]

/-- What is taken off a stack and what is left make it up. -/
theorem values_drop_append_take (d : Nat) (stack : List (Entry V)) :
    values (stack.drop d) ++ values (stack.take d) = values stack := by
  rw [← values_append, List.take_append_drop]

theorem frontiers_push (j : Nat) (t : Tree K) (stack : List (Entry (Tree K))) :
    Tree.frontiers (values (⟨j, some t⟩ :: stack)) =
      Tree.frontiers (values stack) ++ t.frontier := by
  rw [values_cons_some, Tree.frontiers_append, Tree.frontiers, Tree.frontiers, List.append_nil]

theorem nodesOfAll_push (j : Nat) (t : Tree K) (stack : List (Entry (Tree K))) :
    Tree.nodesOfAll (values (⟨j, some t⟩ :: stack)) =
      Tree.nodesOfAll (values stack) + t.nodes := by
  rw [values_cons_some, Tree.nodesOfAll_append, Tree.nodesOfAll, Tree.nodesOfAll, Nat.add_zero]

/-- A node on the stack has the frontier of the trees that were taken off for it. -/
theorem frontiers_reduce (j p d : Nat) (stack : List (Entry (Tree K))) :
    Tree.frontiers (values (⟨j, some (.node p (values (stack.take d)))⟩ :: stack.drop d)) =
      Tree.frontiers (values stack) := by
  rw [frontiers_push, Tree.frontier, ← Tree.frontiers_append, values_drop_append_take]

/-- Besides their nodes it has its own. -/
theorem nodesOfAll_reduce (j p d : Nat) (stack : List (Entry (Tree K))) :
    Tree.nodesOfAll (values (⟨j, some (.node p (values (stack.take d)))⟩ :: stack.drop d)) =
      Tree.nodesOfAll (values stack) + 1 := by
  rw [nodesOfAll_push, Tree.nodes, ← Nat.add_assoc, ← Tree.nodesOfAll_append,
    values_drop_append_take]

end Parser

/-! ## Stacks that grow along transitions -/

namespace Outline

/-- The stack holds trees along transitions, up to a state on its top. -/
inductive Grows (o : Outline T N) (g : Grammar T N V) (r : Reader K T V) :
    Nat → List (Entry (Tree K)) → Prop
  | bottom : Grows o g r 0 [⟨0, none⟩]
  | push {i j : Nat} {stack : List (Entry (Tree K))} {t : Tree K} {s : Symbol T N} :
      Grows o g r i stack → t.IsOf g r → t.symbol? g r = some s → o.next? i s = some j →
      Grows o g r j (⟨j, some t⟩ :: stack)

variable [Ordered T] [Ordered N] {g : Grammar T N V} {r : Reader K T V} {start : Nat}
  {o : Outline T N} {i : Nat} {stack : List (Entry (Tree K))}

theorem Grows.top_eq (h : o.Grows g r i stack)
    (m : Parser K T N (Tree K)) : m.top stack = i := by
  cases h with
  | bottom => rfl
  | push _ _ _ _ => rfl

omit [Ordered T] [Ordered N] in
theorem Grows.length_pos (h : o.Grows g r i stack) : 0 < stack.length := by
  cases h with
  | bottom => exact Nat.zero_lt_one
  | push _ _ _ _ => exact Nat.zero_lt_succ _

/-- An item can be followed down the stack to where it has read nothing. -/
theorem Grows.pop (ho : o.Lawful g start) {p d : Nat} (h : o.Grows g r i stack)
    (hi : o.holds i p d) :
    d < stack.length ∧ (∃ k, o.Grows g r k (stack.drop d) ∧ o.holds k p 0) ∧
      (Parser.values (stack.take d)).map (Tree.symbol? g r) = ((g.rhs p).take d).map some ∧
      ∀ t ∈ Parser.values (stack.take d), t.IsOf g r := by
  induction d generalizing i stack with
  | zero =>
      exact ⟨h.length_pos, ⟨i, h, hi⟩, rfl, by simp⟩
  | succ d ih =>
      cases h with
      | bottom => cases ho.dot_eq_zero hi
      | @push k _ stack t s h ht hs hn =>
          obtain ⟨hk, hd⟩ := ho.back hn hi
          obtain ⟨hlt, hbelow, hsymbols, htrees⟩ := ih h hk
          refine ⟨Nat.succ_lt_succ hlt, hbelow, ?_, ?_⟩
          · rw [List.take_succ_cons, Parser.values_cons_some, List.map_append, hsymbols,
              List.take_add_one, hd]
            simp [hs]
          · rw [List.take_succ_cons, Parser.values_cons_some]
            intro t' ht'
            rcases List.mem_append.mp ht' with h' | h'
            · exact htrees t' h'
            · rw [List.mem_singleton.mp h']
              exact ht

theorem Grows.lt_size (ho : o.Lawful g start) (h : o.Grows g r i stack) : i < o.size := by
  cases h with
  | bottom => exact ho.lt_size (ho.holds_of_expects ho.expects_zero)
  | push _ _ _ hn => exact (ho.entered hn).1

/-- Only the bottom of the stack is the first state. -/
theorem Grows.eq_bottom (ho : o.Lawful g start) (h : o.Grows g r 0 stack) :
    stack = [⟨0, none⟩] := by
  cases h with
  | bottom => rfl
  | push _ _ _ hn => exact absurd rfl (ho.ne_zero_of_next hn)

end Outline

/-! ## Steps that succeed -/

namespace Parser

variable [Ordered T] [Ordered N] {m : Parser K T N V} {p : Nat} {info : ProductionInfo N}
  {production : Production T N V} {next : Nat} {c : Configuration K V E}

theorem reduce_eq (hi : m.table.productions[p]? = some info)
    (hp : m.grammar.productions[p]? = some production) (hl : info.len < c.stack.length)
    (hn : m.table.goto? (m.top (c.stack.drop info.len)) info.lhs = some next) :
    m.reduce p c = .continues { c with
      stack := ⟨next, some (production.act (values (c.stack.take info.len)))⟩ ::
        c.stack.drop info.len
      stats := { c.stats with reductions := c.stats.reductions + 1 } } := by
  rw [reduce, hi]
  simp only [if_neg (Nat.not_le_of_lt hl), hp, hn]

theorem accept_eq (hi : m.table.productions[m.table.startProduction]? = some info)
    (hp : m.grammar.productions[m.table.startProduction]? = some production)
    (hl : c.stack.length = info.len + 1) :
    m.accept c = .ends (.accepted (production.act (values (c.stack.take info.len))))
      { c with stack := c.stack.drop info.len } := by
  rw [accept]
  simp only [hi, hp, if_pos hl]

variable {o : Outline T N} {start : Nat} {c : Configuration K (Tree K) E}

theorem getElem?_productions_of_drives (hd : o.Drives m.grammar start m.table)
    (hp : m.grammar.productions[p]? = some production) :
    m.table.productions[p]? = some ⟨production.lhs, production.rhs.length⟩ := by
  rw [hd.productions, List.getElem?_map, hp]
  rfl

/-- The node of a production is put on the state that follows on its left-hand side. -/
theorem reduce_toTrees (hd : o.Drives m.grammar start m.table)
    (hp : m.grammar.productions[p]? = some production)
    (hl : production.rhs.length < c.stack.length) {k j : Nat}
    (hbelow : o.Grows m.grammar m.reader k (c.stack.drop production.rhs.length))
    (hn : o.next? k (.nonterminal production.lhs) = some j) :
    m.toTrees.reduce p c = .continues { c with
      stack := ⟨j, some (.node p (values (c.stack.take production.rhs.length)))⟩ ::
        c.stack.drop production.rhs.length
      stats := { c.stats with reductions := c.stats.reductions + 1 } } := by
  have goto : m.toTrees.table.goto? (m.toTrees.top (c.stack.drop production.rhs.length))
      production.lhs = some j := by
    rw [hbelow.top_eq]
    exact (hd.goto k production.lhs).trans hn
  have hi : m.toTrees.table.productions[p]? = some ⟨production.lhs, production.rhs.length⟩ :=
    getElem?_productions_of_drives hd hp
  exact reduce_eq hi (Grammar.getElem?_productions_toTrees_of_eq_some hp) hl goto

/-- The node of the start production is accepted. -/
theorem accept_toTrees (hd : o.Drives m.grammar start m.table)
    (hp : m.grammar.productions[start]? = some production)
    (hl : c.stack.length = production.rhs.length + 1) :
    m.toTrees.accept c =
      .ends (.accepted (.node start (values (c.stack.take production.rhs.length))))
        { c with stack := c.stack.drop production.rhs.length } := by
  have hstart : m.toTrees.table.startProduction = start := hd.startProduction
  have hi : m.toTrees.table.productions[m.toTrees.table.startProduction]? =
      some ⟨production.lhs, production.rhs.length⟩ := by
    rw [hstart]
    exact getElem?_productions_of_drives hd hp
  have hg : m.toTrees.grammar.productions[m.toTrees.table.startProduction]? =
      some ⟨production.lhs, production.rhs, production.tag, .node start⟩ := by
    rw [hstart]
    exact Grammar.getElem?_productions_toTrees_of_eq_some hp
  exact accept_eq hi hg hl

end Parser

/-! ## What a parse keeps -/

namespace Outline

/-- The stack and the rest of the stream make up the input, and the counts are right. -/
structure Reads (o : Outline T N) (g : Grammar T N V) (r : Reader K T V)
    (input : List (Except E K)) (c : Configuration K (Tree K) E) : Prop where
  grows : ∃ i, o.Grows g r i c.stack
  input_eq : input =
    (Tree.frontiers (Parser.values c.stack) ++ c.token.toList).map .ok ++ c.input
  tokens : c.stats.tokens =
    (Tree.frontiers (Parser.values c.stack)).length + c.token.toList.length
  shifts : c.stats.shifts = (Tree.frontiers (Parser.values c.stack)).length
  reductions : c.stats.reductions = Tree.nodesOfAll (Parser.values c.stack)

/-- Moreover, where there is no token ahead the stream is at its end. -/
structure Keeps (o : Outline T N) (g : Grammar T N V) (r : Reader K T V)
    (input : List (Except E K)) (c : Configuration K (Tree K) E) : Prop
    extends o.Reads g r input c where
  exhausted : c.token = none → c.input = []

end Outline

namespace Parser

variable [Ordered T] [Ordered N]

/-- How a parse to trees may end. -/
inductive Finishes (m : Parser K T N V) (start : Nat) (input : List (Except E K))
    (c : Configuration K (Tree K) E) : Ending K T (Tree K) E → Prop
  | accepted {children : List (Tree K)} :
      (Tree.node start children).IsOf m.grammar m.reader →
      input = (Tree.frontiers children).map .ok →
      c.stats = ⟨input.length, input.length, Tree.nodesOfAll children⟩ →
      Finishes m start input c (.accepted (.node start children))
  | lexical (e : E) : Finishes m start input c (.lexical e)
  | reported {message : String} {conflicts : List (Action T)} {ahead : Lookahead T}
      {token : Option K} {expected : List (Lookahead T)} {stack : List (Entry (Tree K))} :
      m.table.action? (m.toTrees.top stack) (token.map m.reader.terminal) =
        some (.error message conflicts ahead) →
      Finishes m start input c
        (.rejected ⟨.reported message, m.toTrees.top stack, token, expected, stack⟩)
  | unknown {k : K} {expected : List (Lookahead T)} {stack : List (Entry (Tree K))} :
      m.reader.terminal k ∉ m.grammar.terminals →
      Finishes m start input c
        (.rejected ⟨.noAction, m.toTrees.top stack, some k, expected, stack⟩)

/-- A step keeps what is to be kept or ends the parse in such a way. -/
inductive Sound (m : Parser K T N V) (o : Outline T N) (start : Nat)
    (input : List (Except E K)) : Progress K T (Tree K) E → Prop
  | continues {c : Configuration K (Tree K) E} :
      o.Keeps m.grammar m.reader input c → Sound m o start input (.continues c)
  | ends {how : Ending K T (Tree K) E} {c : Configuration K (Tree K) E} :
      m.Finishes start input c how → Sound m o start input (.ends how c)

variable {m : Parser K T N V} {o : Outline T N} {start i : Nat} {input : List (Except E K)}
  {c : Configuration K (Tree K) E}

theorem pull_sound (h : o.Reads m.grammar m.reader input { c with token := none }) :
    m.Sound o start input (pull c) := by
  obtain ⟨stack, token, rest, stats, pulls⟩ := c
  obtain ⟨grows, input_eq, tokens, shifts, reductions⟩ := h
  simp only [Option.toList_none, List.append_nil, List.length_nil, Nat.add_zero] at *
  cases rest with
  | nil =>
      refine .continues ⟨⟨grows, ?_, ?_, shifts, reductions⟩, fun _ => rfl⟩
      · simpa using input_eq
      · simpa using tokens
  | cons item rest =>
      cases item with
      | error e => exact .ends (.lexical e)
      | ok k =>
          refine .continues ⟨⟨grows, ?_, ?_, shifts, reductions⟩, nofun⟩
          · simpa using input_eq
          · simpa using tokens

theorem shift_sound (hk : o.Keeps m.grammar m.reader input c)
    (hi : o.Grows m.grammar m.reader i c.stack) {k : K} {j : Nat} (ht : c.token = some k)
    (hn : o.next? i (.terminal (m.reader.terminal k)) = some j) :
    m.Sound o start input (m.toTrees.shift j c) := by
  obtain ⟨⟨_, input_eq, tokens, shifts, reductions⟩, _⟩ := hk
  rw [shift, ht]
  rw [ht] at input_eq tokens
  have frontiers : Tree.frontiers (values (⟨j, some (.leaf k)⟩ :: c.stack)) =
      Tree.frontiers (values c.stack) ++ [k] := by
    rw [frontiers_push, Tree.frontier]
  have nodes : Tree.nodesOfAll (values (⟨j, some (.leaf k)⟩ :: c.stack)) =
      Tree.nodesOfAll (values c.stack) := by
    rw [nodesOfAll_push, Tree.nodes, Nat.add_zero]
  refine pull_sound ⟨⟨j, hi.push (.leaf k) rfl hn⟩, ?_, ?_, ?_, ?_⟩
  · show input =
      (Tree.frontiers (values (⟨j, some (.leaf k)⟩ :: c.stack)) ++ []).map .ok ++ c.input
    rw [frontiers, List.append_nil]
    exact input_eq
  · show c.stats.tokens =
      (Tree.frontiers (values (⟨j, some (.leaf k)⟩ :: c.stack))).length + 0
    rw [frontiers, List.length_append]
    exact tokens
  · show c.stats.shifts + 1 = (Tree.frontiers (values (⟨j, some (.leaf k)⟩ :: c.stack))).length
    rw [frontiers, List.length_append, shifts]
    rfl
  · show c.stats.reductions = Tree.nodesOfAll (values (⟨j, some (.leaf k)⟩ :: c.stack))
    rw [nodes]
    exact reductions

/-- The trees that are taken off make a tree. -/
theorem isOf_of_pop {p : Nat} {production : Production T N V} {children : List (Tree K)}
    (hp : m.grammar.productions[p]? = some production)
    (hs : children.map (Tree.symbol? m.grammar m.reader) =
      ((m.grammar.rhs p).take production.rhs.length).map some)
    (ht : ∀ t ∈ children, t.IsOf m.grammar m.reader) :
    (Tree.node p children).IsOf m.grammar m.reader := by
  rw [Grammar.rhs_of_getElem? hp, List.take_length] at hs
  exact .node hp hs ht

theorem reduce_sound (ho : o.Lawful m.grammar start) (hd : o.Drives m.grammar start m.table)
    (hk : o.Keeps m.grammar m.reader input c) (hi : o.Grows m.grammar m.reader i c.stack) {p : Nat}
    (hne : p ≠ start) (hp : o.holds i p (m.grammar.rhs p).length) :
    m.Sound o start input (m.toTrees.reduce p c) := by
  obtain ⟨production, hg, _⟩ := ho.exists_production hp
  rw [Grammar.rhs_of_getElem? hg] at hp
  obtain ⟨hl, ⟨k, hbelow, hk0⟩, hs, ht⟩ := hi.pop ho hp
  obtain ⟨j, hn⟩ := ho.exists_goto hk0 hne hg
  have tree := isOf_of_pop hg hs ht
  rw [reduce_toTrees hd hg hl hbelow hn]
  refine .continues ⟨⟨⟨j, hbelow.push tree ?_ hn⟩, ?_, ?_, ?_, ?_⟩, hk.exhausted⟩
  · rw [Tree.symbol?, hg]
    rfl
  · rw [frontiers_reduce]
    exact hk.input_eq
  · rw [frontiers_reduce]
    exact hk.tokens
  · rw [frontiers_reduce]
    exact hk.shifts
  · rw [nodesOfAll_reduce, ← hk.reductions]

theorem accept_sound (ho : o.Lawful m.grammar start) (hd : o.Drives m.grammar start m.table)
    (hk : o.Keeps m.grammar m.reader input c) (hi : o.Grows m.grammar m.reader i c.stack)
    (ht : c.token = none) (hp : o.holds i start (m.grammar.rhs start).length) :
    m.Sound o start input (m.toTrees.accept c) := by
  obtain ⟨production, hg, _⟩ := ho.exists_production hp
  rw [Grammar.rhs_of_getElem? hg] at hp
  obtain ⟨hl, ⟨k, hbelow, hk0⟩, hs, htrees⟩ := hi.pop ho hp
  have tree := isOf_of_pop hg hs htrees
  -- The start production begins in the first state only, so all of the stack is taken off.
  obtain rfl := ho.eq_zero hk0
  have bottom := hbelow.eq_bottom ho
  have hlength : c.stack.length = production.rhs.length + 1 := by
    have := congrArg List.length bottom
    rw [List.length_drop, List.length_singleton] at this
    omega
  have children : values (c.stack.take production.rhs.length) = values c.stack := by
    rw [← values_drop_append_take production.rhs.length c.stack, bottom]
    rfl
  rw [accept_toTrees hd hg hlength]
  have input_eq : input = (Tree.frontiers (values c.stack)).map .ok := by
    have := hk.input_eq
    rwa [ht, hk.exhausted ht, Option.toList_none, List.append_nil, List.append_nil] at this
  have tokens := hk.tokens
  rw [ht, Option.toList_none, List.length_nil, Nat.add_zero] at tokens
  refine .ends (.accepted tree (children ▸ input_eq) ?_)
  have hlen : input.length = (Tree.frontiers (values c.stack)).length := by
    rw [input_eq, List.length_map]
  have stats : c.stats = ⟨c.stats.tokens, c.stats.shifts, c.stats.reductions⟩ := rfl
  rw [children, hlen, stats, tokens, hk.shifts, hk.reductions]

/-- One step of a parse to trees. -/
theorem step_sound (ho : o.Lawful m.grammar start) (hd : o.Drives m.grammar start m.table)
    (hk : o.Keeps m.grammar m.reader input c) : m.Sound o start input (m.toTrees.step c) := by
  obtain ⟨i, hi⟩ := hk.grows
  have top : m.toTrees.top c.stack = i := hi.top_eq _
  have action : m.toTrees.action? c = m.table.action? i (c.token.map m.reader.terminal) :=
    congrArg (fun i => m.table.action? i _) top
  rw [step]
  cases ha : m.toTrees.action? c with
  | none =>
      obtain ⟨t, ht, hn⟩ := hd.silent (hi.lt_size ho) (action.symm.trans ha)
      obtain ⟨k, hk, rfl⟩ := Option.map_eq_some_iff.mp ht
      rw [reject, hk]
      exact .ends (.unknown hn)
  | some a =>
      have ha := action.symm.trans ha
      cases a with
      | shift j =>
          obtain ⟨t, ht, hn⟩ := hd.shift ha
          obtain ⟨k, hc, rfl⟩ := Option.map_eq_some_iff.mp ht
          exact shift_sound hk hi hc hn
      | reduce p =>
          obtain ⟨hne, he⟩ := hd.reduce ha
          exact reduce_sound ho hd hk hi hne (ho.holds_of_expects he)
      | accept =>
          obtain ⟨ht, he⟩ := hd.accept ha
          exact accept_sound ho hd hk hi (Option.map_eq_none_iff.mp ht) (ho.holds_of_expects he)
      | error message conflicts ahead => exact .ends (.reported (top.symm ▸ ha))

theorem begin_sound (hd : o.Drives m.grammar start m.table) (input : List (Except E K)) :
    m.Sound o start input (m.toTrees.begin input) := by
  have grows : o.Grows m.grammar m.reader 0 [⟨m.toTrees.table.start, none⟩] := by
    rw [show m.toTrees.table.start = 0 from hd.start_eq]
    exact .bottom
  have values : Parser.values [(⟨m.toTrees.table.start, none⟩ : Entry (Tree K))] = [] := rfl
  refine pull_sound ⟨⟨0, grows⟩, ?_, ?_, ?_, ?_⟩
  · rw [values, Tree.frontiers]
    rfl
  · rw [values, Tree.frontiers]
    rfl
  · rw [values, Tree.frontiers]
    rfl
  · rw [values, Tree.nodesOfAll]

/-- A parse to trees ends soundly, if it ends. -/
theorem run_sound (ho : o.Lawful m.grammar start) (hd : o.Drives m.grammar start m.table)
    {steps : Nat} {p : Progress K T (Tree K) E} {how : Ending K T (Tree K) E}
    {c : Configuration K (Tree K) E} (hp : m.Sound o start input p)
    (h : m.toTrees.run steps p = some (how, c)) : m.Finishes start input c how := by
  induction steps generalizing p with
  | zero =>
      cases hp with
      | continues _ => cases h
      | ends hf =>
          cases h
          exact hf
  | succ steps ih =>
      cases hp with
      | continues hk => exact ih (step_sound ho hd hk) h
      | ends hf =>
          cases h
          exact hf

end Parser

/-! ## Soundness -/

/-- For every grammar, start symbol, policy and method: if there is a table, what a parser
accepts with it is the frontier of a tree of the start symbol, and the value is that of the
tree.  Every token was taken and shifted, and each node but the root was reduced. -/
theorem Grammar.parse_sound [Ordered T] [Ordered N] {g : Grammar T N V} {method : Method}
    {start : N} {policy : Policy T} {table : ParseTable T N}
    (ht : (g.compile method start policy).table = .ok table) (r : Reader K T V) {steps : Nat}
    {input : List (Except E K)} {v : V} {c : Configuration K V E}
    (h : (⟨g, table, r⟩ : Parser K T N V).parse steps input = some (.accepted v, c)) :
    ∃ t : Tree K, t.IsOf g r ∧ t.symbol? g r = some (.nonterminal start) ∧
      input = t.frontier.map .ok ∧ t.value? g r = some v ∧
      c.stats.tokens = input.length ∧ c.stats.shifts = input.length ∧
      c.stats.reductions + 1 = t.nodes := by
  obtain ⟨p, hv, verdict, hr⟩ := exists_resolved ht
  have hs := starts_of_validate hv
  have ho := lawful_outline hs method
  obtain ⟨how, ct, hrun, hh, hc⟩ := Parser.parse_shows h
  have hf := Parser.run_sound (m := ⟨g, table, r⟩) ho hr.drives
    (Parser.begin_sound hr.drives input) hrun
  cases hh with
  | accepted hvalue =>
      cases hf with
      | @accepted children tree hi hstats =>
          obtain ⟨production, hg, rfl⟩ := hs.exists_production
          refine ⟨_, tree, ?_, ?_, hvalue, ?_, ?_, ?_⟩
          · rw [Tree.symbol?, hg]
            rfl
          · rw [Tree.frontier]
            exact hi
          · rw [← hc.stats, hstats]
          · rw [← hc.stats, hstats]
          · rw [← hc.stats, hstats, Tree.nodes]

/-- The value of some tokens by the table of a grammar, if there is one. -/
def Grammar.evaluate? [Ordered T] [Ordered N] (g : Grammar T N V) (method : Method) (start : N)
    (policy : Policy T) (r : Reader K T V) (steps : Nat) (tokens : List K) : Option V :=
  match (g.compile method start policy).table with
  | .error _ => none
  | .ok table =>
      match (⟨g, table, r⟩ : Parser K T N V).parse steps
          (tokens.map .ok : List (Except Empty K)) with
      | some (.accepted v, _) => some v
      | _ => none

theorem Grammar.exists_of_evaluate? [Ordered T] [Ordered N] {g : Grammar T N V} {method : Method}
    {start : N} {policy : Policy T} {r : Reader K T V} {steps : Nat} {tokens : List K} {v : V}
    (h : g.evaluate? method start policy r steps tokens = some v) :
    ∃ table c, (g.compile method start policy).table = .ok table ∧
      (⟨g, table, r⟩ : Parser K T N V).parse steps
        (tokens.map .ok : List (Except Empty K)) = some (.accepted v, c) := by
  rw [evaluate?] at h
  split at h
  · cases h
  · rename_i table ht
    split at h
    · rename_i v' c hp
      cases h
      exact ⟨table, c, ht, hp⟩
    · cases h

/-- Terms count one, and what stands between them nothing. -/
def Grammar.ones : Reader Nat Nat Nat := ⟨id, fun k => 1 - k⟩

/-- A sum of three terms has a tree with the value three. -/
theorem Grammar.parse_sums : sums.evaluate? .slr 0 {} ones 20 [0, 1, 0, 1, 0] = some 3 ∧
    ∃ t : Tree Nat, t.IsOf sums ones ∧ t.symbol? sums ones = some (.nonterminal 0) ∧
      ([0, 1, 0, 1, 0].map .ok : List (Except Empty Nat)) = t.frontier.map .ok ∧
      t.value? sums ones = some 3 := by
  have value : sums.evaluate? .slr 0 {} ones 20 [0, 1, 0, 1, 0] = some 3 := by decide +kernel
  obtain ⟨table, c, ht, hp⟩ := exists_of_evaluate? value
  obtain ⟨t, tree, symbol, frontier, tree_value, _⟩ := parse_sound ht ones hp
  exact ⟨value, t, tree, symbol, frontier, tree_value⟩

end BottomUp
