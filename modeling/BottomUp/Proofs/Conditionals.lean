import BottomUp.Proofs.Completion

/-!
# Conditionals

A statement is a simple one, or an `if` with a condition and one or two branches.  The grammar
is ambiguous: where an `if` without `else` is the first branch of an `if` with `else`, the
`else` may as well be its own.  An `else` belongs to the nearest `if` without one just if no
first branch ends in an `if` without `else` (`Nearest`).

Every statement has the frontier of one of that kind (`exists_nearest`).  If a first branch ends
open, the `else` behind it is moved down to the last `if` on its right edge, and so is the second
branch (`exists_attached`).
-/

namespace BottomUp.Conditional

variable {K V E : Type}

/-! ## The grammar -/

/-- What the values of right-hand sides are put together to. -/
structure Meaning (V : Type) where
  /-- The value of a sentence. -/
  sentence : List V → V
  /-- The value of an `if` without `else`. -/
  short : List V → V
  /-- The value of an `if` with `else`. -/
  full : List V → V
  /-- The value of a simple statement. -/
  simple : List V → V

/-- The symbol of statements. -/
abbrev statement : Symbol String String := .nonterminal "St"

/-- The grammar of conditionals. -/
def grammar (μ : Meaning V) : Grammar String String V :=
  .ofClauses [
    .rule "S" [([statement], none, μ.sentence)],
    .rule "St" [
      ([.terminal "if", .terminal "c", statement], none, μ.short),
      ([.terminal "if", .terminal "c", statement, .terminal "else", statement], none, μ.full),
      ([.terminal "s"], none, μ.simple)]]

/-- The policy without vetoes, or the one that forbids to reduce an `if` without `else` before
an `else`. -/
def policy : Bool → Policy String
  | false => {}
  | true => { reduceOn := fun p a => !(p == 1 && a == some "else") }

/-- A sentence is a statement. -/
def sentence (μ : Meaning V) : Production String String V := ⟨"S", [statement], none, μ.sentence⟩

/-- A statement may be an `if` without `else`. -/
def short (μ : Meaning V) : Production String String V :=
  ⟨"St", [.terminal "if", .terminal "c", statement], none, μ.short⟩

/-- A statement may be an `if` with `else`. -/
def full (μ : Meaning V) : Production String String V :=
  ⟨"St", [.terminal "if", .terminal "c", statement, .terminal "else", statement], none, μ.full⟩

/-- A statement may be a simple one. -/
def simple (μ : Meaning V) : Production String String V :=
  ⟨"St", [.terminal "s"], none, μ.simple⟩

variable {μ : Meaning V} {p : Nat} {production : Production String String V}

theorem getElem?_sentence : (grammar μ).productions[0]? = some (sentence μ) := rfl

theorem getElem?_short : (grammar μ).productions[1]? = some (short μ) := rfl

theorem getElem?_full : (grammar μ).productions[2]? = some (full μ) := rfl

theorem getElem?_simple : (grammar μ).productions[3]? = some (simple μ) := rfl

theorem getElem?_cases (h : (grammar μ).productions[p]? = some production) :
    (p = 0 ∧ production = sentence μ) ∨ (p = 1 ∧ production = short μ) ∨
      (p = 2 ∧ production = full μ) ∨ p = 3 ∧ production = simple μ := by
  match p with
  | 0 => exact .inl ⟨rfl, (Option.some.inj h).symm⟩
  | 1 => exact .inr (.inl ⟨rfl, (Option.some.inj h).symm⟩)
  | 2 => exact .inr (.inr (.inl ⟨rfl, (Option.some.inj h).symm⟩))
  | 3 => exact .inr (.inr (.inr ⟨rfl, (Option.some.inj h).symm⟩))
  | p + 4 => cases h

/-! ## Trees -/

/-- The tree ends in an `if` without `else`. -/
inductive EndsOpen : Tree K → Prop
  /-- It is one. -/
  | short {children : List (Tree K)} : EndsOpen (.node 1 children)
  /-- The last child ends in one. -/
  | last {p : Nat} {children : List (Tree K)} {t : Tree K} :
      EndsOpen t → EndsOpen (.node p (children ++ [t]))

/-- No first branch of an `if` with `else` ends in an `if` without. -/
inductive Nearest : Tree K → Prop
  /-- A token has no branches. -/
  | leaf (k : K) : Nearest (.leaf k)
  /-- It is so below, and the first branch does not end open. -/
  | node {p : Nat} {children : List (Tree K)} : (∀ t ∈ children, Nearest t) →
      (∀ t, p = 2 → children[2]? = some t → ¬ EndsOpen t) → Nearest (.node p children)

/-- A tree of a statement, by what kinds of tokens there are. -/
inductive Statement (kind : K → String) : Tree K → Prop
  | short {i c : K} {b : Tree K} : kind i = "if" → kind c = "c" → Statement kind b →
      Statement kind (.node 1 [.leaf i, .leaf c, b])
  | full {i c e : K} {b o : Tree K} : kind i = "if" → kind c = "c" → Statement kind b →
      kind e = "else" → Statement kind o →
      Statement kind (.node 2 [.leaf i, .leaf c, b, .leaf e, o])
  | simple {k : K} : kind k = "s" → Statement kind (.node 3 [.leaf k])

section

variable {i c e k : K} {b o t : Tree K}

theorem not_endsOpen_leaf : ¬ EndsOpen (.leaf k) := nofun

theorem endsOpen_full : EndsOpen (.node 2 [.leaf i, .leaf c, b, .leaf e, o]) ↔ EndsOpen o := by
  constructor
  · intro h
    generalize hw : [.leaf i, .leaf c, b, .leaf e, o] = whole at h
    cases h with
    | @last _ children t h =>
        have split : [.leaf i, .leaf c, b, .leaf e] ++ [o] = children ++ [t] := hw
        obtain ⟨_, same⟩ := List.append_inj' split rfl
        exact List.singleton_inj.mp same ▸ h
  · intro h
    show EndsOpen (.node 2 ([.leaf i, .leaf c, b, .leaf e] ++ [o]))
    exact .last h

theorem not_endsOpen_simple : ¬ EndsOpen (.node 3 [.leaf k]) := by
  intro h
  generalize hw : [Tree.leaf k] = whole at h
  cases h with
  | @last _ children t h =>
      have split : [] ++ [.leaf k] = children ++ [t] := hw
      obtain ⟨_, same⟩ := List.append_inj' split rfl
      exact not_endsOpen_leaf (List.singleton_inj.mp same ▸ h)

theorem nearest_short : Nearest (.node 1 [.leaf i, .leaf c, b]) ↔ Nearest b := by
  constructor
  · intro h
    cases h with
    | node inner _ => exact inner b (by simp)
  · intro h
    refine .node (fun t ht => ?_) fun t hp => by cases hp
    simp only [List.mem_cons, List.not_mem_nil, or_false] at ht
    rcases ht with rfl | rfl | rfl
    · exact .leaf i
    · exact .leaf c
    · exact h

theorem nearest_full : Nearest (.node 2 [.leaf i, .leaf c, b, .leaf e, o]) ↔
    Nearest b ∧ ¬ EndsOpen b ∧ Nearest o := by
  constructor
  · intro h
    cases h with
    | node inner closed => exact ⟨inner b (by simp), closed b rfl rfl, inner o (by simp)⟩
  · rintro ⟨hb, closed, ho⟩
    refine .node (fun t ht => ?_) fun t _ ht => by cases ht; exact closed
    simp only [List.mem_cons, List.not_mem_nil, or_false] at ht
    rcases ht with rfl | rfl | rfl | rfl | rfl
    · exact .leaf i
    · exact .leaf c
    · exact hb
    · exact .leaf e
    · exact ho

theorem nearest_simple : Nearest (.node 3 [.leaf k]) :=
  .node (fun t ht => List.mem_singleton.mp ht ▸ .leaf k) fun t hp => by cases hp

theorem nearest_sentence : Nearest (.node 0 [t]) ↔ Nearest t := by
  constructor
  · intro h
    cases h with
    | node inner _ => exact inner t List.mem_cons_self
  · exact fun h => .node (fun u hu => List.mem_singleton.mp hu ▸ h) fun u hp => by cases hp

theorem frontier_short :
    (Tree.node 1 [.leaf i, .leaf c, b]).frontier = i :: c :: b.frontier := by
  simp [Tree.frontier, Tree.frontiers]

theorem frontier_full : (Tree.node 2 [.leaf i, .leaf c, b, .leaf e, o]).frontier =
    i :: c :: (b.frontier ++ e :: o.frontier) := by
  simp [Tree.frontier, Tree.frontiers]

theorem frontier_sentence : (Tree.node 0 [t]).frontier = t.frontier := by
  simp [Tree.frontier, Tree.frontiers]

end

/-! ## Moving an `else` -/

section

variable {kind : K → String} {e : K} {b o t : Tree K}

/-- Behind a statement that ends open, an `else` with its branch belongs to the last `if` of
it. -/
theorem exists_attached (hb : Statement kind b) (nb : Nearest b) (ends : EndsOpen b)
    (he : kind e = "else") (ho : Statement kind o) (no : Nearest o) :
    ∃ t, Statement kind t ∧ Nearest t ∧ t.frontier = b.frontier ++ e :: o.frontier := by
  induction hb with
  | @short i c d hi hc hd ih =>
      have nd := nearest_short.mp nb
      by_cases ends : EndsOpen d
      · obtain ⟨t, ht, nt, frontier⟩ := ih nd ends
        refine ⟨_, .short hi hc ht, nearest_short.mpr nt, ?_⟩
        rw [frontier_short, frontier_short, frontier]
        rfl
      · -- this is the last one
        refine ⟨_, .full hi hc hd he ho, nearest_full.mpr ⟨nd, ends, no⟩, ?_⟩
        rw [frontier_short, frontier_full]
        rfl
  | @full i c e' d o' hi hc hd he' _ _ ih =>
      obtain ⟨nd, closed, no'⟩ := nearest_full.mp nb
      obtain ⟨t, ht, nt, frontier⟩ := ih no' (endsOpen_full.mp ends)
      refine ⟨_, .full hi hc hd he' ht, nearest_full.mpr ⟨nd, closed, nt⟩, ?_⟩
      rw [frontier_full, frontier_full, frontier]
      simp
  | simple _ => exact absurd ends not_endsOpen_simple

/-- Every statement can be read so that each `else` belongs to the nearest `if`. -/
theorem exists_nearest (h : Statement kind t) :
    ∃ u, Statement kind u ∧ Nearest u ∧ u.frontier = t.frontier := by
  induction h with
  | short hi hc _ ih =>
      obtain ⟨u, hu, nu, frontier⟩ := ih
      refine ⟨_, .short hi hc hu, nearest_short.mpr nu, ?_⟩
      rw [frontier_short, frontier_short, frontier]
  | @full i c e b o hi hc _ he _ ihb iho =>
      obtain ⟨b', hb, nb, hfb⟩ := ihb
      obtain ⟨o', ho, no, hfo⟩ := iho
      rw [frontier_full, ← hfb, ← hfo]
      by_cases ends : EndsOpen b'
      · obtain ⟨t, ht, nt, frontier⟩ := exists_attached hb nb ends he ho no
        exact ⟨_, .short hi hc ht, nearest_short.mpr nt, by rw [frontier_short, frontier]⟩
      · exact ⟨_, .full hi hc hb he ho, nearest_full.mpr ⟨nb, ends, no⟩, frontier_full⟩
  | simple hk => exact ⟨_, .simple hk, nearest_simple, rfl⟩

end

/-! ## Trees of the grammar -/

section

variable {r : Reader K String V} {s : String} {t : Tree K}

/-- A terminal is the symbol of a token. -/
theorem exists_token (h : t.symbol? (grammar μ) r = some (.terminal s)) :
    ∃ k, t = .leaf k ∧ r.terminal k = s := by
  cases t with
  | leaf k =>
      cases h
      exact ⟨k, rfl, rfl⟩
  | node p children =>
      obtain ⟨production, _, hs⟩ := Option.map_eq_some_iff.mp h
      cases hs

theorem symbol?_token {k : K} (h : r.terminal k = s) :
    (Tree.leaf k).symbol? (grammar μ) r = some (.terminal s) := by
  rw [← h]
  rfl

theorem statement_of_isOf (h : t.IsOf (grammar μ) r)
    (hs : t.symbol? (grammar μ) r = some statement) : Statement r.terminal t := by
  induction h with
  | leaf k => cases hs
  | @node p production children hp children_eq _ ih =>
      rcases getElem?_cases hp with ⟨rfl, _⟩ | ⟨rfl, rfl⟩ | ⟨rfl, rfl⟩ | ⟨rfl, rfl⟩
      · simp [Tree.symbol?, getElem?_sentence, sentence] at hs
      · obtain ⟨x, ts, rfl, hx, rest⟩ := List.map_eq_cons_iff.mp children_eq
        obtain ⟨y, ts, rfl, hy, rest⟩ := List.map_eq_cons_iff.mp rest
        obtain ⟨b, rfl, hb⟩ := List.map_eq_singleton_iff.mp rest
        obtain ⟨i, rfl, hi⟩ := exists_token hx
        obtain ⟨c, rfl, hc⟩ := exists_token hy
        exact .short hi hc (ih b (by simp) hb)
      · obtain ⟨x, ts, rfl, hx, rest⟩ := List.map_eq_cons_iff.mp children_eq
        obtain ⟨y, ts, rfl, hy, rest⟩ := List.map_eq_cons_iff.mp rest
        obtain ⟨b, ts, rfl, hb, rest⟩ := List.map_eq_cons_iff.mp rest
        obtain ⟨z, ts, rfl, hz, rest⟩ := List.map_eq_cons_iff.mp rest
        obtain ⟨o, rfl, ho⟩ := List.map_eq_singleton_iff.mp rest
        obtain ⟨i, rfl, hi⟩ := exists_token hx
        obtain ⟨c, rfl, hc⟩ := exists_token hy
        obtain ⟨e, rfl, he⟩ := exists_token hz
        exact .full hi hc (ih b (by simp) hb) he (ih o (by simp) ho)
      · obtain ⟨x, rfl, hx⟩ := List.map_eq_singleton_iff.mp children_eq
        obtain ⟨k, rfl, hk⟩ := exists_token hx
        exact .simple hk

theorem symbol?_of_statement (h : Statement r.terminal t) :
    t.symbol? (grammar μ) r = some statement := by
  cases h <;> rfl

theorem isOf_of_statement (h : Statement r.terminal t) : t.IsOf (grammar μ) r := by
  induction h with
  | @short i c b hi hc hb ih =>
      refine .node getElem?_short ?_ (by simp [ih, Tree.IsOf.leaf])
      simp [short, symbol?_token hi, symbol?_token hc, symbol?_of_statement hb]
  | @full i c e b o hi hc hb he ho ihb iho =>
      refine .node getElem?_full ?_ (by simp [ihb, iho, Tree.IsOf.leaf])
      simp [full, symbol?_token hi, symbol?_token hc, symbol?_token he, symbol?_of_statement hb,
        symbol?_of_statement ho]
  | @simple k hk =>
      refine .node getElem?_simple ?_ (by simp [Tree.IsOf.leaf])
      simp [simple, symbol?_token hk]

/-- The tree of a sentence, in which each `else` belongs to the nearest `if`, with the tokens of
a stream. -/
structure Reads (μ : Meaning V) (r : Reader K String V) (input : List (Except E K))
    (t : Tree K) : Prop where
  tree : t.IsOf (grammar μ) r
  root : t.symbol? (grammar μ) r = some (.nonterminal "S")
  nearest : Nearest t
  input_eq : input = t.frontier.map .ok

/-- The tree of a sentence is over that of a statement. -/
theorem exists_statement (h : t.IsOf (grammar μ) r)
    (hs : t.symbol? (grammar μ) r = some (.nonterminal "S")) :
    ∃ u, t = .node 0 [u] ∧ Statement r.terminal u := by
  cases h with
  | leaf k => cases hs
  | @node p production children hp children_eq trees =>
      rcases getElem?_cases hp with ⟨rfl, rfl⟩ | ⟨rfl, _⟩ | ⟨rfl, _⟩ | ⟨rfl, _⟩
      · obtain ⟨u, rfl, hu⟩ := List.map_eq_singleton_iff.mp children_eq
        exact ⟨u, rfl, statement_of_isOf (trees u List.mem_cons_self) hu⟩
      · simp [Tree.symbol?, getElem?_short, short] at hs
      · simp [Tree.symbol?, getElem?_full, full] at hs
      · simp [Tree.symbol?, getElem?_simple, simple] at hs

theorem isOf_sentence {u : Tree K} (h : Statement r.terminal u) :
    (Tree.node 0 [u]).IsOf (grammar μ) r := by
  refine .node getElem?_sentence ?_ (by simp [isOf_of_statement h])
  simp [sentence, symbol?_of_statement h]

variable {input : List (Except E K)}

theorem reads_iff : Reads μ r input t ↔
    ∃ u, t = .node 0 [u] ∧ Statement r.terminal u ∧ Nearest u ∧ input = u.frontier.map .ok := by
  constructor
  · rintro ⟨tree, root, nearest, input_eq⟩
    obtain ⟨u, rfl, hu⟩ := exists_statement tree root
    rw [frontier_sentence] at input_eq
    exact ⟨u, rfl, hu, nearest_sentence.mp nearest, input_eq⟩
  · rintro ⟨u, rfl, hu, nearest, input_eq⟩
    exact ⟨isOf_sentence hu, rfl, nearest_sentence.mpr nearest, by rwa [frontier_sentence]⟩

/-- If there is a tree of a sentence, there is one in which each `else` belongs to the nearest
`if`. -/
theorem exists_reads (h : t.IsOf (grammar μ) r)
    (hs : t.symbol? (grammar μ) r = some (.nonterminal "S")) (hi : input = t.frontier.map .ok) :
    ∃ u, Reads μ r input u := by
  obtain ⟨u, rfl, hu⟩ := exists_statement h hs
  obtain ⟨u', hu', nearest, frontier⟩ := exists_nearest hu
  refine ⟨_, reads_iff.mpr ⟨u', rfl, hu', nearest, ?_⟩⟩
  rw [hi, frontier_sentence, frontier]

/-- The streams of tokens that can be read are the sentences. -/
theorem exists_reads_iff : (∃ t, Reads μ r input t) ↔
    ∃ w : List K, input = w.map .ok ∧ (grammar μ).IsSentence "S" (w.map r.terminal) := by
  constructor
  · rintro ⟨t, h⟩
    refine ⟨t.frontier, h.input_eq, ?_⟩
    have derives := h.tree.derives_frontier _ h.root
    rwa [Grammar.IsSentence, List.map_map]
  · rintro ⟨w, rfl, h⟩
    rw [Grammar.IsSentence, List.map_map] at h
    obtain ⟨ts, trees, frontier⟩ := Tree.exists_of_derives h (Tree.areOf_leaves w)
    obtain ⟨t, rfl, hs⟩ := List.map_eq_singleton_iff.mp trees.symbols
    refine exists_reads (trees.trees t List.mem_cons_self) hs ?_
    rw [Tree.frontiers_leaves, Tree.frontiers, Tree.frontiers, List.append_nil] at frontier
    rw [frontier]

end

end BottomUp.Conditional
