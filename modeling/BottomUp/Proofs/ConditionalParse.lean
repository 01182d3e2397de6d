import BottomUp.Proofs.BrokenStreams
import BottomUp.Proofs.ConditionalTable
import BottomUp.Proofs.Consumption
import BottomUp.Proofs.Steps

/-!
# The nearest `if` takes the `else`

Where a statement is awaited the parser gets over each one in which every `else` belongs to the
nearest `if`, unless an `else` comes that a last `if` of it could take (`passes`).  A first branch
does not end open, so the `else` behind it is no such one.

So the statement that makes up the input is accepted with its value (`exists_accepted`), and there
is only one (`reads_unique`), because the same holds where the values are the trees themselves.
Since every sentence has such a tree, nothing is lost by the reductions that are not done.  The
policy has no part in any of this, nor has the method (`binds_nearest`).
-/

namespace BottomUp.Conditional

variable {K V E : Type}

/-- The parser of conditionals with a table. -/
abbrev parser (μ : Meaning V) (table : ParseTable String String) (r : Reader K String V) :
    Parser K String String V :=
  ⟨grammar μ, table, r⟩

/-- An `if` with its condition on the stack. -/
abbrev opening (r : Reader K String V) (i k : K) : List (Symbol String String × V) :=
  [(.terminal "if", r.value i), (.terminal "c", r.value k)]

/-- Wherever the statement is awaited, the parser gets over it and puts its value on the stack,
unless the statement ends open and an `else` is next. -/
def Passes (μ : Meaning V) (method : Method) (table : ParseTable String String)
    (r : Reader K String V) (E : Type) (t : Tree K) : Prop :=
  ∀ {xs : List (Symbol String String × V)} {w : List K} {c : Configuration K V E},
    Awaits (xs.map Prod.fst) (w.head?.map r.terminal) →
    (EndsOpen t → w.head?.map r.terminal ≠ some "else") →
    c.Bears (outline μ method) xs (t.frontier ++ w) →
    ∃ v c', (parser μ table r).Goes c c' ∧
      c'.Bears (outline μ method) (xs ++ [(statement, v)]) w ∧ t.value? (grammar μ) r = some v

variable {μ : Meaning V} {r : Reader K String V} {method : Method} {veto : Bool}
  {verdict : Nat → Lookahead String → Verdict String} {table : ParseTable String String}
  {xs ys : List (Symbol String String × V)} {a : Lookahead String} {p steps : Nat} {s : String}
  {i k e : K} {w : List K} {b o t u : Tree K} {input : List (Except E K)} {v : V}
  {how : Ending K String V E} {c : Configuration K V E}

/-- Every production but the first has a terminal on its right-hand side. -/
theorem consuming (μ : Meaning V) : (grammar μ).Consuming 0 := by
  intro p production hp hne
  rcases getElem?_cases hp with ⟨rfl, _⟩ | ⟨_, rfl⟩ | ⟨_, rfl⟩ | ⟨_, rfl⟩
  · exact absurd rfl hne
  · exact ⟨"if", by simp [short]⟩
  · exact ⟨"if", by simp [full]⟩
  · exact ⟨"s", by simp [simple]⟩

/-! ## The values of statements -/

theorem value?_short (hb : b.value? (grammar μ) r = some v) :
    (Tree.node 1 [.leaf i, .leaf k, b]).value? (grammar μ) r =
      some (μ.short [r.value i, r.value k, v]) := by
  refine Tree.value?_node getElem?_short ?_
  simp [Tree.values?, Tree.value?, hb]

theorem value?_full {v' : V} (hb : b.value? (grammar μ) r = some v)
    (ho : o.value? (grammar μ) r = some v') :
    (Tree.node 2 [.leaf i, .leaf k, b, .leaf e, o]).value? (grammar μ) r =
      some (μ.full [r.value i, r.value k, v, r.value e, v']) := by
  refine Tree.value?_node getElem?_full ?_
  simp [Tree.values?, Tree.value?, hb, ho]

theorem value?_simple : (Tree.node 3 [.leaf k]).value? (grammar μ) r =
    some (μ.simple [r.value k]) := by
  refine Tree.value?_node getElem?_simple ?_
  simp [Tree.values?, Tree.value?]

theorem value?_sentence (ht : t.value? (grammar μ) r = some v) :
    (Tree.node 0 [t]).value? (grammar μ) r = some (μ.sentence [v]) := by
  refine Tree.value?_node getElem?_sentence ?_
  simp [Tree.values?, ht]

/-! ## The parser gets over statements -/

section

variable (hr : (outline μ method).Resolved (grammar μ) (policy veto) 0 verdict table)

include hr

/-- The table shifts the next token. -/
theorem exists_shifted (hk : r.terminal k = s) (hc : c.Bears (outline μ method) xs (k :: w))
    (ha : ∀ {i}, (outline μ method).Spells (xs.map Prod.fst) i →
      ∃ j, table.action? i (some s) = some (.shift j)) :
    ∃ c', (parser μ table r).step c = .continues c' ∧
      c'.Bears (outline μ method) (xs ++ [(.terminal s, r.value k)]) w := by
  subst hk
  exact Parser.exists_shifted (m := parser μ table r) hr.drives hc ha

/-- The table reduces what has been read to the end. -/
theorem exists_completed {production : Production String String V}
    (hp : (grammar μ).productions[p]? = some production) (hys : ys.map Prod.fst = production.rhs)
    (hc : c.Bears (outline μ method) (xs ++ ys) w)
    (done : Completed (xs.map Prod.fst ++ production.rhs) (w.head?.map r.terminal) p)
    (ha : p = 1 → w.head?.map r.terminal ≠ some "else") :
    ∃ c', (parser μ table r).step c = .continues c' ∧ c'.Bears (outline μ method)
      (xs ++ [(.nonterminal production.lhs, production.act (ys.map Prod.snd))]) w :=
  Parser.exists_completed (m := parser μ table r) (lawful μ method) hr.drives hp hys hc
    fun path => action_completed hr done path ha

/-- The parser gets over an `if` and its condition. -/
theorem exists_opened (hi : r.terminal i = "if") (hk : r.terminal k = "c")
    (hπ : Awaits (xs.map Prod.fst) a) (hc : c.Bears (outline μ method) xs (i :: k :: w)) :
    ∃ c', (parser μ table r).Goes c c' ∧
      c'.Bears (outline μ method) (xs ++ opening r i k) w := by
  obtain ⟨c₁, shifted, hc₁⟩ := exists_shifted hr hi hc fun path =>
    action_shift hr path (fun _ _ h => h.not_awaits hπ) (.opening hπ)
  obtain ⟨c₂, condition, hc₂⟩ := exists_shifted hr hk hc₁ fun path => by
    rw [List.map_append] at path
    exact action_shift hr path (fun _ _ => not_completed_opening) (.condition hπ)
  rw [List.append_assoc] at hc₂
  exact ⟨c₂, .step shifted (.step condition .refl), hc₂⟩

theorem passes_simple (hk : r.terminal k = "s") :
    Passes μ method table r E (.node 3 [.leaf k]) := by
  intro xs w c hπ _ hc
  obtain ⟨c₁, shifted, hc₁⟩ := exists_shifted hr hk hc fun path =>
    action_shift hr path (fun _ _ h => h.not_awaits hπ) (.simple hπ)
  obtain ⟨c₂, reduced, hc₂⟩ := exists_completed hr getElem?_simple rfl hc₁ (.simple hπ) nofun
  exact ⟨_, c₂, .step shifted (.step reduced .refl), hc₂, value?_simple⟩

theorem passes_short (hi : r.terminal i = "if") (hk : r.terminal k = "c")
    (hb : Passes μ method table r E b) :
    Passes μ method table r E (.node 1 [.leaf i, .leaf k, b]) := by
  intro xs w c hπ ends hc
  have next : w.head?.map r.terminal ≠ some "else" := ends .short
  rw [frontier_short] at hc
  obtain ⟨c₁, opened, hc₁⟩ := exists_opened hr hi hk hπ hc
  have awaits : Awaits ((xs ++ opening r i k).map Prod.fst) (w.head?.map r.terminal) := by
    rw [List.map_append]
    exact hπ.only
  obtain ⟨v, c₂, inside, hc₂, value⟩ := hb awaits (fun _ => next) hc₁
  rw [List.append_assoc] at hc₂
  obtain ⟨c₃, reduced, hc₃⟩ :=
    exists_completed hr getElem?_short rfl hc₂ (.short hπ) fun _ => next
  exact ⟨_, c₃, opened.trans (inside.trans (.step reduced .refl)), hc₃, value?_short value⟩

/-- The first branch does not end open, so it may have the `else` behind it. -/
theorem passes_full (hi : r.terminal i = "if") (hk : r.terminal k = "c")
    (he : r.terminal e = "else") (closed : ¬ EndsOpen b) (hb : Passes μ method table r E b)
    (ho : Passes μ method table r E o) :
    Passes μ method table r E (.node 2 [.leaf i, .leaf k, b, .leaf e, o]) := by
  intro xs w c hπ ends hc
  rw [frontier_full, List.cons_append, List.cons_append, List.append_assoc, List.cons_append] at hc
  obtain ⟨c₁, opened, hc₁⟩ := exists_opened hr hi hk hπ hc
  have first : Awaits ((xs ++ opening r i k).map Prod.fst) (some (r.terminal e)) := by
    rw [List.map_append, he]
    exact hπ.first
  obtain ⟨v, c₂, before, hc₂, value⟩ := hb first (fun h => absurd h closed) hc₁
  rw [List.append_assoc] at hc₂
  obtain ⟨c₃, otherwise, hc₃⟩ := exists_shifted hr he hc₂ fun path => by
    rw [List.map_append] at path
    exact action_else hr hπ path
  rw [List.append_assoc] at hc₃
  have second : Awaits ((xs ++ (opening r i k ++ [(statement, v)] ++
      [(Symbol.terminal "else", r.value e)])).map Prod.fst) (w.head?.map r.terminal) := by
    rw [List.map_append]
    exact hπ.second
  obtain ⟨v', c₄, behind, hc₄, value'⟩ := ho second (fun h => ends (endsOpen_full.mpr h)) hc₃
  rw [List.append_assoc] at hc₄
  obtain ⟨c₅, reduced, hc₅⟩ := exists_completed hr getElem?_full rfl hc₄ (.full hπ) nofun
  refine ⟨_, c₅, ?_, hc₅, value?_full value value'⟩
  exact opened.trans (before.trans (.step otherwise (behind.trans (.step reduced .refl))))

/-- The parser gets over every statement in which each `else` belongs to the nearest `if`. -/
theorem passes (ht : Statement r.terminal t) (nearest : Nearest t) :
    Passes μ method table r E t := by
  induction ht with
  | simple hk => exact passes_simple hr hk
  | short hi hk _ ih => exact passes_short hr hi hk (ih (nearest_short.mp nearest))
  | full hi hk _ he _ ihb iho =>
      obtain ⟨nb, closed, no⟩ := nearest_full.mp nearest
      exact passes_full hr hi hk he closed (ihb nb) (iho no)

/-! ## What is accepted -/

/-- A stream that can be read is accepted with the value of the tree. -/
theorem exists_accepted (h : Reads μ r input t) : ∃ steps v c,
    (parser μ table r).parse steps input = some (.accepted v, c) ∧
      t.value? (grammar μ) r = some v := by
  obtain ⟨u, rfl, hu, nearest, rfl⟩ := reads_iff.mp h
  obtain ⟨c₀, begun, run⟩ := Parser.exists_begun (m := parser μ table r) hr.drives u.frontier
  rw [← List.append_nil u.frontier] at begun
  have whole : Awaits (([] : List (Symbol String String × V)).map Prod.fst)
    (([] : List K).head?.map r.terminal) := .start
  obtain ⟨v, c₁, goes, hc₁, value⟩ :=
    passes hr hu nearest whole (fun _ h => by cases h) begun
  obtain ⟨i, hi⟩ := hc₁.exists_spells
  obtain ⟨c₂, accepted, _⟩ := Parser.exists_accepted (m := parser μ table r) hr.drives
    getElem?_sentence rfl hc₁ ⟨i, hi, action_accept hr hi⟩
  obtain ⟨steps, ends⟩ := run goes accepted
  exact ⟨steps, _, c₂, ends, value?_sentence value⟩

/-- Only streams that can be read are accepted. -/
theorem exists_reads_of_parse (h : (parser μ table r).parse steps input = some (.accepted v, c)) :
    ∃ t, Reads μ r input t := by
  obtain ⟨children, tree, input_eq⟩ :=
    Parser.exists_tree_of_parse (m := parser μ table r) (lawful μ method) hr.drives h
  refine exists_reads tree rfl ?_
  rw [Tree.frontier]
  exact input_eq

/-- What is accepted is the value of the tree. -/
theorem accepted_iff (h : (parser μ table r).parse steps input = some (how, c)) :
    how = .accepted v ↔ ∃ t, Reads μ r input t ∧ t.value? (grammar μ) r = some v := by
  constructor
  · rintro rfl
    obtain ⟨t, ht⟩ := exists_reads_of_parse hr h
    obtain ⟨_, v', _, accepted, value⟩ := exists_accepted hr ht
    cases Parser.parse_unique h accepted
    exact ⟨t, ht, value⟩
  · rintro ⟨t, ht, value⟩
    obtain ⟨_, v', _, accepted, value'⟩ := exists_accepted hr ht
    cases value.symm.trans value'
    exact Parser.parse_unique h accepted

/-- A parse takes at most two steps for each entry of the stream and one more. -/
theorem exists_parse (r : Reader K String V) (input : List (Except E K)) : ∃ how c,
    (parser μ table r).parse (2 * input.length + 1) input = some (how, c) := by
  obtain ⟨⟨how, c⟩, h⟩ := Parser.exists_parse_of_consuming (m := parser μ table r)
    (lawful μ method) hr.drives (consuming μ) input (Nat.lt_succ_self _)
  exact ⟨how, c, h⟩

end

/-! ## There is one tree -/

/-- The meaning that keeps the trees. -/
def trees (K : Type) : Meaning (Tree K) := ⟨.node 0, .node 1, .node 2, .node 3⟩

theorem value?_trees {kind : K → String} (h : Statement kind t) :
    t.value? (grammar (trees K)) ⟨kind, .leaf⟩ = some t := by
  induction h with
  | short _ _ _ ih => exact value?_short ih
  | full _ _ _ _ _ ihb iho => exact value?_full ihb iho
  | simple _ => exact value?_simple

/-- No stream can be read as two trees, because a parse to trees accepts both. -/
theorem reads_unique (ht : Reads μ r input t) (hu : Reads μ r input u) : t = u := by
  obtain ⟨table, verdict, _, hr⟩ := exists_table (trees K) .slr false
  have accepted {t : Tree K} (h : Reads μ r input t) : ∃ steps c,
      (parser (trees K) table ⟨r.terminal, .leaf⟩).parse steps input = some (.accepted t, c) := by
    obtain ⟨t, rfl, ht, nearest, input_eq⟩ := reads_iff.mp h
    obtain ⟨steps, v, c, accepted, value⟩ :=
      exists_accepted (r := ⟨r.terminal, .leaf⟩) hr (reads_iff.mpr ⟨t, rfl, ht, nearest, input_eq⟩)
    cases value.symm.trans (value?_sentence (value?_trees ht))
    exact ⟨steps, c, accepted⟩
  obtain ⟨_, _, first⟩ := accepted ht
  obtain ⟨_, _, second⟩ := accepted hu
  cases Parser.parse_unique first second
  rfl

/-- A stream of tokens can be read as at most one tree in which each `else` belongs to the nearest
`if`, and it can just if it is a sentence.  Both methods have a table, with the veto and without,
and every parse with such a table ends.  It accepts the value of that tree, and nothing if there
is no tree. -/
theorem binds_nearest (μ : Meaning V) (r : Reader K String V) (input : List (Except E K)) :
    ∃ result : Option V,
      (∀ v, result = some v ↔ ∃ t, Reads μ r input t ∧ t.value? (grammar μ) r = some v) ∧
      (∀ t u, Reads μ r input t → Reads μ r input u → t = u) ∧
      ((∃ v, result = some v) ↔
        ∃ w : List K, input = w.map .ok ∧ (grammar μ).IsSentence "S" (w.map r.terminal)) ∧
      ∀ method veto, ∃ table how c,
        ((grammar μ).compile method "S" (policy veto)).table = .ok table ∧
        (parser μ table r).parse (2 * input.length + 1) input = some (how, c) ∧
        ∀ v, how = .accepted v ↔ result = some v := by
  have exists_result : ∃ result : Option V, ∀ v, result = some v ↔
      ∃ t, Reads μ r input t ∧ t.value? (grammar μ) r = some v := by
    by_cases h : ∃ t, Reads μ r input t
    · obtain ⟨t, ht⟩ := h
      refine ⟨t.value? (grammar μ) r, fun v => ⟨fun hv => ⟨t, ht, hv⟩, ?_⟩⟩
      rintro ⟨u, hu, hv⟩
      rw [reads_unique ht hu, hv]
    · exact ⟨none, fun v => ⟨nofun, fun ⟨t, ht, _⟩ => absurd ⟨t, ht⟩ h⟩⟩
  obtain ⟨result, value_iff⟩ := exists_result
  refine ⟨result, value_iff, fun t u ht hu => reads_unique ht hu, ?_, fun method veto => ?_⟩
  · rw [← exists_reads_iff]
    constructor
    · rintro ⟨v, hv⟩
      obtain ⟨t, ht, _⟩ := (value_iff v).mp hv
      exact ⟨t, ht⟩
    · rintro ⟨t, ht⟩
      obtain ⟨v, hv⟩ := ht.tree.exists_value?
      exact ⟨v, (value_iff v).mpr ⟨t, ht, hv⟩⟩
  · obtain ⟨table, verdict, compiled, hr⟩ := exists_table μ method veto
    obtain ⟨how, c, ends⟩ := exists_parse hr r input
    refine ⟨table, how, c, compiled, ends, fun v => ?_⟩
    rw [accepted_iff hr ends, value_iff]

end BottomUp.Conditional
