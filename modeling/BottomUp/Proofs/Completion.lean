import BottomUp.Proofs.Agreement

/-!
# Completing what is on the stack

A grammar is *productive* from a start symbol if every nonterminal that the start symbol
reaches derives some terminals.  Then what the stack of a parser holds can be completed to a
sentence: a chain leads down to the item on top, and what it leaves to the right derives
some terminals (`Chain.exists_derives_terminals`).  The trees on the stack and these
terminals are the frontier of a tree of the start symbol (`Tree.exists_of_derives`).

Conversely a parser of that sentence comes by the same stack.  It gets over the trees to the
left of the chain one production of the chain after the other
(`Follows.arrives_of_chain`).  What follows them need not complete the sentence for
that, as long as it shows the same lookahead.
-/

namespace BottomUp

variable {K T N V E : Type}

/-! ## Trees of derivations -/

namespace Tree

variable {g : Grammar T N V} {r : Reader K T V} {a b : List (Symbol T N)} {ts : List (Tree K)}

/-- The trees are of the grammar and stand for the symbols. -/
structure AreOf (g : Grammar T N V) (r : Reader K T V) (symbols : List (Symbol T N))
    (ts : List (Tree K)) : Prop where
  symbols : ts.map (symbol? g r) = symbols.map some
  trees : ∀ t ∈ ts, t.IsOf g r

theorem AreOf.append {us : List (Tree K)} (h : AreOf g r a ts) (h' : AreOf g r b us) :
    AreOf g r (a ++ b) (ts ++ us) where
  symbols := by rw [List.map_append, List.map_append, h.symbols, h'.symbols]
  trees t ht := (List.mem_append.mp ht).elim (h.trees t) (h'.trees t)

theorem AreOf.split (h : AreOf g r (a ++ b) ts) :
    ∃ us vs, ts = us ++ vs ∧ AreOf g r a us ∧ AreOf g r b vs := by
  have symbols := h.symbols
  rw [List.map_append] at symbols
  obtain ⟨us, vs, rfl, ha, hb⟩ := List.map_eq_append_iff.mp symbols
  exact ⟨us, vs, rfl, ⟨ha, fun t ht => h.trees t (List.mem_append_left _ ht)⟩,
    ⟨hb, fun t ht => h.trees t (List.mem_append_right _ ht)⟩⟩

theorem areOf_leaves (w : List K) :
    AreOf g r (w.map fun k => .terminal (r.terminal k)) (w.map .leaf) where
  symbols := by
    rw [List.map_map, List.map_map]
    rfl
  trees t ht := by
    obtain ⟨k, _, rfl⟩ := List.mem_map.mp ht
    exact .leaf k

theorem frontiers_leaves : ∀ w : List K, frontiers (w.map .leaf) = w
  | [] => by rw [List.map_nil, frontiers]
  | k :: w => by rw [List.map_cons, frontiers, frontier, frontiers_leaves w, List.singleton_append]

/-- Trees of what a string is rewritten to are put together to trees of the string. -/
theorem exists_of_rewrites (h : g.Rewrites a b) (ht : AreOf g r b ts) :
    ∃ us : List (Tree K), AreOf g r a us ∧ frontiers us = frontiers ts := by
  cases h with
  | @apply p left right hp =>
      obtain ⟨_, after, rfl, hfront, hafter⟩ := ht.split
      obtain ⟨before, children, rfl, hbefore, hchildren⟩ := hfront.split
      obtain ⟨q, hq⟩ := List.getElem?_of_mem hp
      have node : AreOf g r [.nonterminal p.lhs] [.node q children] := by
        refine ⟨?_, fun t ht => ?_⟩
        · rw [List.map_singleton, symbol?, hq]
          rfl
        · rw [List.mem_singleton.mp ht]
          exact .node hq hchildren.symbols hchildren.trees
      refine ⟨before ++ ([.node q children] ++ after), ?_, by simp [frontiers, frontier]⟩
      have whole := hbefore.append (node.append hafter)
      rwa [List.singleton_append] at whole

/-- Trees of what a string derives are put together to trees of the string. -/
theorem exists_of_derives (h : g.Derives a b) (ht : AreOf g r b ts) :
    ∃ us : List (Tree K), AreOf g r a us ∧ frontiers us = frontiers ts := by
  induction h generalizing ts with
  | refl => exact ⟨ts, ht, rfl⟩
  | tail _ step ih =>
      obtain ⟨us, hu, hf⟩ := exists_of_rewrites step ht
      obtain ⟨vs, hv, hf'⟩ := ih hu
      exact ⟨vs, hv, hf'.trans hf⟩

end Tree

/-! ## Productive grammars -/

namespace Grammar

variable [Ordered T] [Ordered N] {g : Grammar T N V} {start : N}

/-- Every nonterminal that the start symbol reaches derives some terminals. -/
def Productive (g : Grammar T N V) (start : N) : Prop :=
  ∀ n ∈ g.reachable start, ∃ w : List T, g.Derives [.nonterminal n] (w.map .terminal)

omit [Ordered T] in
theorem mem_successors {n m : N} :
    m ∈ g.successors n ↔ ∃ p ∈ g.productions, p.lhs = n ∧ .nonterminal m ∈ p.rhs := by
  simp only [successors, List.mem_flatMap, mem_alternatives, List.mem_filterMap,
    Symbol.nonterminal?_eq_some]
  constructor
  · rintro ⟨q, ⟨p, hp, hl⟩, _, hs, rfl⟩
    rw [rhs_of_getElem? hp] at hs
    exact ⟨p, List.mem_of_getElem? hp, hl, hs⟩
  · rintro ⟨p, hp, hl, hs⟩
    obtain ⟨q, hq⟩ := List.getElem?_of_mem hp
    exact ⟨q, ⟨p, hq, hl⟩, _, by rwa [rhs_of_getElem? hq], rfl⟩

omit [Ordered T] in
theorem mem_reachable (hs : start ∈ g.nonterminals) {n : N} :
    n ∈ g.reachable start ↔ Generated g.successors [start] n := by
  rw [reachable, SortedSet.mem_ofList, if_pos hs]
  refine mem_reach_iff (fun _ h => List.mem_singleton.mp h ▸ hs) ?_ (Nat.le_refl _)
  intro m _ k hk
  obtain ⟨p, hp, _, hm⟩ := mem_successors.mp hk
  exact mem_nonterminals_of_mem_rhs hp hm

omit [Ordered T] in
/-- What a chain leaves to the right is reached from the start symbol. -/
theorem Chain.generated {n : N} {left right : List (Symbol T N)} (h : g.Chain start left n right) :
    Generated g.successors [start] n ∧
      ∀ m, .nonterminal m ∈ right → Generated g.successors [start] m := by
  induction h with
  | start => exact ⟨.seed List.mem_cons_self, by simp⟩
  | @down left right before after p n _ hp hr ih =>
      obtain ⟨hl, hright⟩ := ih
      have on {m : N} (hm : .nonterminal m ∈ p.rhs) : Generated g.successors [start] m :=
        hl.step (mem_successors.mpr ⟨p, hp, rfl, hm⟩)
      refine ⟨on (by simp [hr]), fun m hm => ?_⟩
      rcases List.mem_append.mp hm with hm | hm
      · exact on (by simp [hr, hm])
      · exact hright m hm

omit [Ordered N] [Ordered T] in
theorem exists_derives_terminals : ∀ {symbols : List (Symbol T N)},
    (∀ n, .nonterminal n ∈ symbols → ∃ w : List T, g.Derives [.nonterminal n] (w.map .terminal)) →
      ∃ w : List T, g.Derives symbols (w.map .terminal)
  | [], _ => ⟨[], .refl⟩
  | s :: symbols, h => by
      obtain ⟨w, hw⟩ := exists_derives_terminals fun n hn => h n (List.mem_cons_of_mem _ hn)
      have first : ∃ v : List T, g.Derives [s] (v.map .terminal) := by
        cases s with
        | terminal t => exact ⟨[t], .refl⟩
        | nonterminal n => exact h n List.mem_cons_self
      obtain ⟨v, hv⟩ := first
      refine ⟨v ++ w, ?_⟩
      rw [List.map_append]
      exact hv.append hw

omit [Ordered T] in
/-- What a chain leaves to the right derives some terminals. -/
theorem Chain.exists_derives_terminals {n : N} {left right : List (Symbol T N)}
    (h : g.Chain start left n right) (hs : start ∈ g.nonterminals)
    (productive : g.Productive start) : ∃ w : List T, g.Derives right (w.map .terminal) :=
  Grammar.exists_derives_terminals fun m hm =>
    productive m ((mem_reachable hs).mpr (h.generated.2 m hm))

end Grammar

/-- Where an item is valid, the trees that are read and tokens for the rest make up a tree of
the start symbol. -/
theorem Grammar.Valid.exists_tree {g : Grammar T N V} {r : Reader K T V} {start : N}
    {γ right : List (Symbol T N)} {p : Nat}
    (hv : g.Valid start γ p (g.rhs p).length right) {ts : List (Tree K)}
    (ht : Tree.AreOf g r γ ts) {z : List K}
    (hz : g.Derives right (z.map fun k => .terminal (r.terminal k))) :
    ∃ t : Tree K, t.IsOf g r ∧ t.symbol? g r = some (.nonterminal start) ∧
      t.frontier = Tree.frontiers ts ++ z := by
  obtain ⟨production, left, hp, -, hc, rfl⟩ := hv
  rw [Grammar.rhs_of_getElem? hp, List.take_length] at ht
  have reads := (Derives.of_production (List.mem_of_getElem? hp)).between left right
  rw [List.append_assoc left [_] right, List.singleton_append] at reads
  have whole := hc.derives.trans (reads.trans (Derives.refl.append hz))
  obtain ⟨us, hu, hf⟩ := Tree.exists_of_derives whole (ht.append (Tree.areOf_leaves z))
  obtain ⟨t, rfl, hroot⟩ := List.map_eq_singleton_iff.mp hu.symbols
  refine ⟨t, hu.trees t List.mem_cons_self, hroot, ?_⟩
  rw [Tree.frontiers_append, Tree.frontiers_leaves, Tree.frontiers, Tree.frontiers,
    List.append_nil] at hf
  exact hf

/-! ## Getting along a chain -/

namespace Parser

variable [Ordered T] [Ordered N] {m : Parser K T N V} {o : Outline T N} {policy : Policy T}
  {start : Nat} {sym : N}

/-- The parser gets over some trees at the beginning of the tokens, and then it is in a
state with them on the stack. -/
def Arrives (m : Parser K T N V) (o : Outline T N) (E : Type) (ts : List (Tree K)) (z : List K)
    (i : Nat) : Prop :=
  ∃ c₀ stack, ∃ c : Configuration K (Tree K) E,
    m.toTrees.begin ((Tree.frontiers ts ++ z).map .ok) = .continues c₀ ∧ m.toTrees.Goes c₀ c ∧
      c.At stack z ∧ o.Grows m.grammar m.reader i stack ∧ Parser.values stack = ts

theorem Follows.arrives_nil (h : m.Follows o policy start) (z : List K) : m.Arrives o E [] z 0 := by
  obtain ⟨c₀, hbegin, hc₀⟩ := pull_at (T := T) (w := z)
    (c := (⟨[⟨0, none⟩], none, z.map .ok, {}, 0⟩ : Configuration K (Tree K) E)) rfl
  have start_eq : m.toTrees.table.start = 0 := h.drives.start_eq
  refine ⟨c₀, _, c₀, ?_, .refl, hc₀, .bottom, rfl⟩
  rw [begin, start_eq, Tree.frontiers]
  exact hbegin

/-- From where it arrives it goes on over a part of a production that it expects. -/
theorem Follows.arrives_append (h : m.Follows o policy start) (hstart : m.grammar.Starts sym start)
    {p d i : Nat} {a : Lookahead T} {ts us : List (Tree K)} {symbols after : List (Symbol T N)}
    {z : List K} (ht : m.Arrives o E ts (Tree.frontiers us ++ z) i) (he : o.expects i p d a)
    (hu : Tree.AreOf m.grammar m.reader symbols us)
    (hr : (m.grammar.rhs p).drop d = symbols ++ after)
    (hz : z.head?.map m.reader.terminal ∈ (FirstSets.of m.grammar).ofSequence after a) :
    ∃ j, m.Arrives o E (ts ++ us) z j ∧ o.expects j p (d + symbols.length) a := by
  obtain ⟨c₀, stack, c, hbegin, hgoes, hc, hi, hvalues⟩ := ht
  obtain ⟨j, above, c', hgoes', hc', hj, he', _, habove⟩ :=
    h.exists_goes_append hz hu.trees (fun t ht => h.covers hstart (hu.trees t ht)) hu.symbols hr
      hi he hc
  refine ⟨j, ⟨c₀, above ++ stack, c', ?_, hgoes.trans hgoes', hc', hj, ?_⟩, he'⟩
  · rwa [Tree.frontiers_append, List.append_assoc]
  · rw [values_append, hvalues, habove]

/-- Before the tokens of the trees to the left of a chain whatever can follow them, the
parser gets over the trees. -/
theorem Follows.arrives_of_chain (h : m.Follows o policy start)
    (hstart : m.grammar.Starts sym start) {left right : List (Symbol T N)} {n : N}
    (hc : m.grammar.Chain sym left n right) :
    ∀ {w : List T} {ts : List (Tree K)} {z : List K}, m.grammar.Derives right (w.map .terminal) →
      Tree.AreOf m.grammar m.reader left ts →
      z.head?.map m.reader.terminal ∈
        (FirstSets.of m.grammar).ofSequence [.nonterminal n] w.head? →
      ∃ i, m.Arrives o E ts z i ∧ ∀ q ∈ m.grammar.alternatives n, o.expects i q 0 w.head? := by
  induction hc with
  | start =>
      intro w ts z hw ht _
      obtain rfl : w = [] := List.map_eq_nil_iff.mp (Grammar.Derives.eq_of_terminals (w := []) hw)
      obtain rfl : ts = [] := List.map_eq_nil_iff.mp ht.symbols
      refine ⟨0, h.arrives_nil z, fun q hq => ?_⟩
      rw [hstart.alternatives, List.mem_singleton] at hq
      exact hq ▸ h.lawful.expects_zero
  | @down left right before after production n hc hp hr ih =>
      intro w ts z hw ht hz
      obtain ⟨_, _, hw', h₁, h₂⟩ := hw.split
      obtain ⟨w₁, w₂, rfl, rfl, rfl⟩ := List.map_eq_append_iff.mp hw'
      obtain ⟨us, vs, rfl, hu, hv⟩ := ht.split
      obtain ⟨q, hq⟩ := List.getElem?_of_mem hp
      have follows : (w₁ ++ w₂).head? ∈ (FirstSets.of m.grammar).ofSequence after w₂.head? :=
        FirstSets.head?_mem_ofSequence h₁ w₂
      -- What comes after the trees so far shows what can begin the production of the chain.
      have rest := FirstSets.mem_ofSequence_append hz follows
      have whole := FirstSets.mem_ofSequence_append
        (Tree.mem_ofSequence_of_isOf (w := z) hv.symbols hv.trees) rest
      rw [List.singleton_append, ← hr] at whole
      obtain ⟨i, hi, he⟩ := ih h₂ hu
        (FirstSets.mem_ofSequence_of_derives (Grammar.Derives.of_production hp) whole)
      have demanded : o.expects i q 0 w₂.head? :=
        he q (Grammar.mem_alternatives.mpr ⟨production, hq, rfl⟩)
      have hrhs : (m.grammar.rhs q).drop 0 = before ++ .nonterminal n :: after := by
        rw [Grammar.rhs_of_getElem? hq, List.drop_zero, hr]
      obtain ⟨j, hj, hje⟩ := h.arrives_append hstart hi demanded hv hrhs rest
      refine ⟨j, hj, fun q' hq' => h.lawful.expects_demanded hje ?_ hq' follows⟩
      rw [Nat.zero_add, Grammar.rhs_of_getElem? hq, hr, List.drop_left]

/-- Before a lookahead with which an item is valid, the parser gets over the trees that the
item has read and those to the left of the chain to it. -/
theorem Follows.arrives_of_valid (h : m.Follows o policy start)
    (hstart : m.grammar.Starts sym start) {γ right : List (Symbol T N)} {p : Nat}
    (hv : m.grammar.Valid sym γ p (m.grammar.rhs p).length right) {w : List T}
    (hw : m.grammar.Derives right (w.map .terminal)) {ts : List (Tree K)}
    (ht : Tree.AreOf m.grammar m.reader γ ts) {z : List K}
    (hz : z.head?.map m.reader.terminal = w.head?) : ∃ i, m.Arrives o E ts z i := by
  obtain ⟨production, left, hp, -, hc, rfl⟩ := hv
  rw [Grammar.rhs_of_getElem? hp, List.take_length] at ht
  obtain ⟨us, vs, rfl, hu, hv⟩ := ht.split
  have ends : z.head?.map m.reader.terminal ∈ (FirstSets.of m.grammar).ofSequence [] w.head? :=
    FirstSets.mem_ofSequence.mpr (.inr ⟨hz, FirstSets.vanishes_nil⟩)
  have whole := FirstSets.mem_ofSequence_append
    (Tree.mem_ofSequence_of_isOf (w := z) hv.symbols hv.trees) ends
  rw [List.append_nil] at whole
  obtain ⟨i, hi, he⟩ := h.arrives_of_chain (E := E) hstart hc hw hu
    (FirstSets.mem_ofSequence_of_derives
      (Grammar.Derives.of_production (List.mem_of_getElem? hp)) whole)
  have hrhs : (m.grammar.rhs p).drop 0 = production.rhs ++ [] := by
    rw [Grammar.rhs_of_getElem? hp, List.drop_zero, List.append_nil]
  obtain ⟨j, hj, _⟩ := h.arrives_append hstart hi
    (he p (Grammar.mem_alternatives.mpr ⟨production, hp, rfl⟩)) hv hrhs ends
  exact ⟨j, hj⟩

end Parser

end BottomUp
