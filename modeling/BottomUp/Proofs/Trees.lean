import BottomUp.Parser.Tree
import Mathlib.Data.List.Forall2

/-!
# Parsing to trees

If every action builds a node and every token is a leaf, a parser computes trees.  It goes
through the same states as a parser of the grammar with the same table, whatever table that
is, and each value on the stack of the one is the value of the tree on the stack of the
other (`Configuration.Shows`).  One step keeps this (`step_shows`), and so does a whole
parse (`parse_shows`).  So what is to be known of the values a parser computes can be
proved of trees.
-/

namespace BottomUp

variable {K T N V E : Type}

/-! ## Building trees -/

namespace Grammar

/-- The grammar with actions that build nodes. -/
def toTrees (K : Type) (g : Grammar T N V) : Grammar T N (Tree K) where
  nonterminals := g.nonterminals
  productions := g.productions.zipIdx.map fun (production, p) =>
    ⟨production.lhs, production.rhs, production.tag, .node p⟩
  precedence := g.precedence
  nodup := g.nodup
  listed := by
    intro q hq n hn
    obtain ⟨⟨production, p⟩, hm, rfl⟩ := List.mem_map.mp hq
    exact g.listed production (List.fst_mem_of_mem_zipIdx hm) n hn

theorem getElem?_productions_toTrees (g : Grammar T N V) (p : Nat) :
    (g.toTrees K).productions[p]? = g.productions[p]?.map fun production =>
      ⟨production.lhs, production.rhs, production.tag, .node p⟩ := by
  rw [toTrees, List.getElem?_map, List.getElem?_zipIdx]
  cases g.productions[p]? with
  | none => rfl
  | some production => simp

theorem getElem?_productions_toTrees_of_eq_some {g : Grammar T N V} {p : Nat}
    {production : Production T N V} (h : g.productions[p]? = some production) :
    (g.toTrees K).productions[p]? =
      some ⟨production.lhs, production.rhs, production.tag, .node p⟩ := by
  rw [getElem?_productions_toTrees, h]
  rfl

end Grammar

/-- The parser that computes trees with the same table. -/
def Parser.toTrees [Ordered T] [Ordered N] (m : Parser K T N V) : Parser K T N (Tree K) where
  grammar := m.grammar.toTrees K
  table := m.table
  reader := ⟨m.reader.terminal, .leaf⟩

/-! ## The values of trees -/

namespace Tree

variable {g : Grammar T N V} {r : Reader K T V}

/-- Some trees have values if each of them has one. -/
theorem values?_eq_some {ts : List (Tree K)} {vs : List V}
    (h : List.Forall₂ (fun t v => value? g r t = some v) ts vs) : values? g r ts = some vs := by
  induction h with
  | nil => rw [values?]
  | cons hv _ ih =>
      rw [values?, hv, ih]
      rfl

theorem value?_node {p : Nat} {production : Production T N V} {children : List (Tree K)}
    {vs : List V} (hp : g.productions[p]? = some production)
    (hv : values? g r children = some vs) :
    value? g r (.node p children) = some (production.act vs) := by
  rw [value?, hp, hv]
  rfl

theorem exists_values? {ts : List (Tree K)} (h : ∀ t ∈ ts, ∃ v, value? g r t = some v) :
    ∃ vs, values? g r ts = some vs := by
  induction ts with
  | nil => exact ⟨[], by rw [values?]⟩
  | cons t ts ih =>
      obtain ⟨v, hv⟩ := h t List.mem_cons_self
      obtain ⟨vs, hvs⟩ := ih fun u hu => h u (List.mem_cons_of_mem _ hu)
      refine ⟨v :: vs, ?_⟩
      rw [values?, hv, hvs]
      rfl

/-- A tree of a grammar has a value. -/
theorem IsOf.exists_value? {t : Tree K} (h : t.IsOf g r) : ∃ v, t.value? g r = some v := by
  induction h with
  | leaf k => exact ⟨r.value k, by rw [value?]⟩
  | node hp _ _ ih =>
      obtain ⟨vs, hvs⟩ := exists_values? ih
      exact ⟨_, value?_node hp hvs⟩

end Tree

/-! ## Trees and their values on the stack -/

/-- The entries have one state, and if there is a value it is that of the tree. -/
structure Entry.Shows (g : Grammar T N V) (r : Reader K T V) (e : Entry (Tree K))
    (e' : Entry V) : Prop where
  state : e.state = e'.state
  value : e.value?.map (Tree.value? g r) = e'.value?.map some

/-- The configurations differ in that one holds trees and the other one their values. -/
structure Configuration.Shows (g : Grammar T N V) (r : Reader K T V)
    (c : Configuration K (Tree K) E) (c' : Configuration K V E) : Prop where
  stack : List.Forall₂ (Entry.Shows g r) c.stack c'.stack
  token : c.token = c'.token
  input : c.input = c'.input
  stats : c.stats = c'.stats
  pulls : c.pulls = c'.pulls

/-- The parses end in the same way, one with a tree and the other one with its value. -/
inductive Ending.Shows (g : Grammar T N V) (r : Reader K T V) :
    Ending K T (Tree K) E → Ending K T V E → Prop
  /-- The input is accepted with a value. -/
  | accepted {t : Tree K} {v : V} : t.value? g r = some v → Shows g r (.accepted t) (.accepted v)
  /-- The stream of tokens breaks off. -/
  | lexical (e : E) : Shows g r (.lexical e) (.lexical e)
  /-- There is a syntax error. -/
  | rejected {fault : SyntaxFault} {state : Nat} {token : Option K}
      {expected : List (Lookahead T)} {stack : List (Entry (Tree K))} {stack' : List (Entry V)} :
      List.Forall₂ (Entry.Shows g r) stack stack' →
      Shows g r (.rejected ⟨fault, state, token, expected, stack⟩)
        (.rejected ⟨fault, state, token, expected, stack'⟩)
  /-- A length does not fit a word. -/
  | overflow : Shows g r .overflow .overflow

/-- The steps lead to the same situation. -/
inductive Progress.Shows (g : Grammar T N V) (r : Reader K T V) :
    Progress K T (Tree K) E → Progress K T V E → Prop
  /-- Both parses go on. -/
  | continues {c : Configuration K (Tree K) E} {c' : Configuration K V E} :
      c.Shows g r c' → Shows g r (.continues c) (.continues c')
  /-- Both parses end. -/
  | ends {how : Ending K T (Tree K) E} {how' : Ending K T V E}
      {c : Configuration K (Tree K) E} {c' : Configuration K V E} :
      how.Shows g r how' → c.Shows g r c' → Shows g r (.ends how c) (.ends how' c')

namespace Parser

variable {g : Grammar T N V} {r : Reader K T V} {stack : List (Entry (Tree K))}
  {stack' : List (Entry V)} {c : Configuration K (Tree K) E} {c' : Configuration K V E}

/-- The values of some entries are those of their trees. -/
theorem values_shows (h : List.Forall₂ (Entry.Shows g r) stack stack') :
    Tree.values? g r (values stack) = some (values stack') := by
  refine Tree.values?_eq_some (List.forall₂_reverse_iff.mpr ?_)
  induction h with
  | nil => exact .nil
  | @cons e e' stack stack' he _ ih =>
      have hv := he.value
      rw [List.filterMap_cons, List.filterMap_cons]
      cases ht : e.value? with
      | none =>
          rw [ht] at hv
          rw [Option.map_eq_none_iff.mp hv.symm]
          exact ih
      | some t =>
          rw [ht] at hv
          obtain ⟨v, hv', hv⟩ := Option.map_eq_some_iff.mp hv.symm
          rw [hv']
          exact .cons hv.symm ih

theorem pull_shows (h : c.Shows g r c') :
    (pull c : Progress K T (Tree K) E).Shows g r (pull c') := by
  obtain ⟨stack, token, input, stats, pulls⟩ := c
  obtain ⟨stack', token', input', stats', pulls'⟩ := c'
  obtain ⟨hs, rfl, rfl, rfl, rfl⟩ := h
  cases input with
  | nil => exact .continues ⟨hs, rfl, rfl, rfl, rfl⟩
  | cons item input =>
      cases item with
      | ok k => exact .continues ⟨hs, rfl, rfl, rfl, rfl⟩
      | error e => exact .ends (.lexical e) ⟨hs, rfl, rfl, rfl, rfl⟩

variable [Ordered T] [Ordered N] {m : Parser K T N V}

theorem top_shows (h : List.Forall₂ (Entry.Shows g r) stack stack') :
    m.toTrees.top stack = m.top stack' := by
  cases h with
  | nil => rfl
  | cons he _ => exact he.state

theorem action?_shows (h : c.Shows g r c') : m.toTrees.action? c = m.action? c' := by
  rw [action?, action?, top_shows h.stack, h.token]
  rfl

theorem reject_shows (h : c.Shows g r c') (fault : SyntaxFault) (state : Nat) :
    (m.toTrees.reject fault state c).Shows g r (m.reject fault state c') := by
  rw [reject, reject, h.token]
  exact .ends (.rejected h.stack) h

theorem shift_shows (h : c.Shows g m.reader c') (state : Nat) :
    (m.toTrees.shift state c).Shows g m.reader (m.shift state c') := by
  refine pull_shows ⟨.cons ⟨rfl, ?_⟩ h.stack, h.token, h.input, ?_, h.pulls⟩
  · rw [h.token]
    cases c'.token with
    | none => rfl
    | some k =>
        show some (Tree.value? _ _ (.leaf k)) = _
        rw [Tree.value?]
        rfl
  · show { c.stats with shifts := c.stats.shifts + 1 } = _
    rw [h.stats]

theorem reduce_shows (h : c.Shows m.grammar m.reader c') (p : Nat) :
    (m.toTrees.reduce p c).Shows m.grammar m.reader (m.reduce p c') := by
  have below (n : Nat) : Configuration.Shows m.grammar m.reader
      { c with stack := c.stack.drop n } { c' with stack := c'.stack.drop n } :=
    ⟨List.forall₂_drop n h.stack, h.token, h.input, h.stats, h.pulls⟩
  rw [reduce, reduce]
  cases hi : m.table.productions[p]? with
  | none =>
      simp only [toTrees, hi]
      rw [← top_shows h.stack]
      exact reject_shows h _ _
  | some info =>
      simp only [toTrees, hi, h.stack.length_eq]
      split
      · rw [← top_shows h.stack]
        exact reject_shows h _ _
      · rw [Grammar.getElem?_productions_toTrees]
        cases hp : m.grammar.productions[p]? with
        | none =>
            rw [← top_shows h.stack]
            exact reject_shows (below info.len) _ _
        | some production =>
            have ht := top_shows (m := m) (List.forall₂_drop info.len h.stack)
            simp only [toTrees] at ht
            simp only [Option.map_some, ht]
            cases hn : m.table.goto? (m.top (c'.stack.drop info.len)) info.lhs with
            | none => exact reject_shows (below info.len) _ _
            | some next =>
                have stack := (below info.len).stack
                refine .continues ⟨.cons ⟨rfl, ?_⟩ stack, h.token, h.input, ?_, h.pulls⟩
                · refine congrArg some (Tree.value?_node hp ?_)
                  exact values_shows (List.forall₂_take info.len h.stack)
                · rw [h.stats]

theorem accept_shows (h : c.Shows m.grammar m.reader c') :
    (m.toTrees.accept c).Shows m.grammar m.reader (m.accept c') := by
  rw [accept, accept]
  simp only [toTrees, Grammar.getElem?_productions_toTrees]
  cases m.table.productions[m.table.startProduction]? with
  | none =>
      simp only
      rw [← top_shows h.stack]
      exact reject_shows h _ _
  | some info =>
      cases hp : m.grammar.productions[m.table.startProduction]? with
      | none =>
          simp only [Option.map_none]
          rw [← top_shows h.stack]
          exact reject_shows h _ _
      | some production =>
          simp only [Option.map_some, h.stack.length_eq]
          split
          · refine .ends (.accepted (Tree.value?_node hp ?_)) ?_
            · exact values_shows (List.forall₂_take info.len h.stack)
            · exact ⟨List.forall₂_drop info.len h.stack, h.token, h.input, h.stats, h.pulls⟩
          · split
            · exact .ends .overflow h
            · rw [← top_shows h.stack]
              exact reject_shows h _ _

/-- A step on trees and the step on their values lead to the same situation. -/
theorem step_shows (h : c.Shows m.grammar m.reader c') :
    (m.toTrees.step c).Shows m.grammar m.reader (m.step c') := by
  rw [step, step, action?_shows h, ← top_shows h.stack]
  cases m.action? c' with
  | none => exact reject_shows h _ _
  | some action =>
      cases action with
      | shift state => exact shift_shows h state
      | reduce p => exact reduce_shows h p
      | accept => exact accept_shows h
      | error message conflicts ahead => exact reject_shows h _ _

theorem begin_shows (m : Parser K T N V) (input : List (Except E K)) :
    (m.toTrees.begin input).Shows m.grammar m.reader (m.begin input) :=
  pull_shows ⟨.cons ⟨rfl, rfl⟩ .nil, rfl, rfl, rfl, rfl⟩

/-- A parse to trees and the parse to values run alike. -/
theorem run_shows {p : Progress K T (Tree K) E} {p' : Progress K T V E}
    (h : p.Shows m.grammar m.reader p') : ∀ steps : Nat,
      (∃ how c how' c', m.toTrees.run steps p = some (how, c) ∧ m.run steps p' = some (how', c') ∧
        how.Shows m.grammar m.reader how' ∧ c.Shows m.grammar m.reader c') ∨
      (m.toTrees.run steps p = none ∧ m.run steps p' = none) := by
  intro steps
  induction steps generalizing p p' with
  | zero =>
      cases h with
      | continues h => exact .inr ⟨rfl, rfl⟩
      | ends hh hc => exact .inl ⟨_, _, _, _, rfl, rfl, hh, hc⟩
  | succ steps ih =>
      cases h with
      | continues h => exact ih (step_shows h)
      | ends hh hc => exact .inl ⟨_, _, _, _, rfl, rfl, hh, hc⟩

/-- What a parse ends with is what the parse to trees ends with, the values being those of
the trees. -/
theorem parse_shows {steps : Nat} {input : List (Except E K)} {how' : Ending K T V E}
    {c' : Configuration K V E} (h : m.parse steps input = some (how', c')) :
    ∃ how c, m.toTrees.parse steps input = some (how, c) ∧
      how.Shows m.grammar m.reader how' ∧ c.Shows m.grammar m.reader c' := by
  rcases run_shows (begin_shows m input) steps with ⟨how, c, _, _, ht, hv, hh, hc⟩ | ⟨_, hv⟩
  · cases hv.symm.trans h
    exact ⟨how, c, ht, hh, hc⟩
  · cases hv.symm.trans h

end Parser

end BottomUp
