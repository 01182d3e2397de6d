import BottomUp.Proofs.Simulation

/-!
# Steps along paths

A parser does not see the path to the state on top of its stack, but it can be followed
along it.  Let the stack *bear* some symbols with their values, one above the other
(`Outline.Bears`).  These symbols label a path, and what the table does where the path leads
is what the parser does.  Each kind of action has one lemma.  A shift puts one symbol more
on the stack (`exists_shift`), and a reduction replaces the symbols of a right-hand side,
whatever stands below them (`exists_reduced`).

So it is enough to know the actions of a table by the strings of symbols that lead to them,
and the numbers of states need not be known at all.
-/

namespace BottomUp

variable {K T N V E : Type}

/-! ## Symbols with values on the stack -/

/-- The stack holds these values of these symbols, along a path. -/
inductive Outline.Bears (o : Outline T N) :
    List (Symbol T N × V) → Nat → List (Entry V) → Prop
  | bottom : Bears o [] 0 [⟨0, none⟩]
  | push {xs : List (Symbol T N × V)} {i j : Nat} {stack : List (Entry V)} {s : Symbol T N}
      {v : V} : Bears o xs i stack → o.next? i s = some j →
      Bears o (xs ++ [(s, v)]) j (⟨j, some v⟩ :: stack)

namespace Outline.Bears

variable {o : Outline T N} {xs : List (Symbol T N × V)} {i : Nat} {stack : List (Entry V)}

theorem carries (h : o.Bears xs i stack) : o.Carries (xs.map Prod.fst) i stack := by
  induction h with
  | bottom => exact .bottom
  | push _ hn ih =>
      rw [List.map_append]
      exact ih.push hn

/-- Without symbols there is only the bottom. -/
theorem eq_bottom (h : o.Bears ([] : List (Symbol T N × V)) i stack) : stack = [⟨0, none⟩] := by
  generalize hw : ([] : List (Symbol T N × V)) = whole at h
  cases h with
  | bottom => rfl
  | push _ _ => simp at hw

/-- The uppermost values can be taken off. -/
theorem pop (ys : List (Symbol T N × V)) : ∀ {i : Nat} {stack : List (Entry V)},
    o.Bears (xs ++ ys) i stack → ∃ k, o.Bears xs k (stack.drop ys.length) ∧
      Parser.values (stack.take ys.length) = ys.map Prod.snd := by
  induction ys using List.reverseRecOn with
  | nil =>
      intro i stack h
      rw [List.append_nil] at h
      exact ⟨i, h, rfl⟩
  | append_singleton ys y ih =>
      intro i stack h
      generalize hw : xs ++ (ys ++ [y]) = whole at h
      cases h with
      | bottom => simp at hw
      | push h _ =>
          rw [← List.append_assoc] at hw
          obtain ⟨rfl, hy⟩ := List.append_inj' hw rfl
          obtain ⟨k, below, values⟩ := ih h
          cases hy
          refine ⟨k, ?_, ?_⟩
          · rw [List.length_append, List.length_singleton, List.drop_succ_cons]
            exact below
          · rw [List.length_append, List.length_singleton, List.take_succ_cons,
              Parser.values_cons_some, values, List.map_append, List.map_singleton]

end Outline.Bears

/-- A token on the stack. -/
def Reader.item (r : Reader K T V) (k : K) : Symbol T N × V := (.terminal (r.terminal k), r.value k)

/-- These values of these symbols are on the stack, and these tokens are yet to be shifted. -/
def Configuration.Bears (o : Outline T N) (xs : List (Symbol T N × V)) (w : List K)
    (c : Configuration K V E) : Prop :=
  ∃ i stack, o.Bears xs i stack ∧ c.At stack w

theorem Configuration.Bears.exists_spells {o : Outline T N} {xs : List (Symbol T N × V)}
    {w : List K} {c : Configuration K V E} (hc : c.Bears o xs w) :
    ∃ i, o.Spells (xs.map Prod.fst) i := by
  obtain ⟨i, _, hi, _⟩ := hc
  exact ⟨i, hi.carries.spells⟩

/-! ## Steps along paths -/

namespace Parser

variable [Ordered T] [Ordered N] {m : Parser K T N V} {o : Outline T N} {start : Nat}
  {xs ys : List (Symbol T N × V)} {w : List K} {c : Configuration K V E}

/-- Where a path leads the table has this action before the lookahead. -/
def Acts (m : Parser K T N V) (o : Outline T N) (γ : List (Symbol T N)) (w : List K)
    (action : Action T) : Prop :=
  ∃ i, o.Spells γ i ∧ m.table.action? i (w.head?.map m.reader.terminal) = some action

theorem action?_of_acts {action : Action T} (hc : c.Bears o xs w)
    (ha : m.Acts o (xs.map Prod.fst) w action) : m.action? c = some action := by
  obtain ⟨i, stack, hi, hat⟩ := hc
  obtain ⟨j, hj, ha⟩ := ha
  rw [action?, hat.stack_eq, hi.carries.top_eq, hat.token_eq, hi.carries.spells.unique hj]
  exact ha

theorem acts_of_action? {action : Action T} (hc : c.Bears o xs w)
    (ha : m.action? c = some action) : m.Acts o (xs.map Prod.fst) w action := by
  obtain ⟨i, stack, hi, hat⟩ := hc
  rw [action?, hat.stack_eq, hi.carries.top_eq, hat.token_eq] at ha
  exact ⟨i, hi.carries.spells, ha⟩

/-- A token is put on the stack. -/
theorem exists_shift {k : K} {j : Nat} (hd : o.Drives m.grammar start m.table)
    (hc : c.Bears o xs (k :: w)) (ha : m.Acts o (xs.map Prod.fst) (k :: w) (.shift j)) :
    ∃ c', m.step c = .continues c' ∧
      c'.Bears o (xs ++ [m.reader.item k]) w := by
  have action := action?_of_acts hc ha
  obtain ⟨i, stack, hi, hat⟩ := hc
  obtain ⟨i', hi', ha⟩ := ha
  obtain ⟨t, ht, hn⟩ := hd.shift ha
  cases ht
  obtain rfl := hi.carries.spells.unique hi'
  have token : c.token = some k := hat.token_eq
  obtain ⟨c', hp, hc'⟩ := pull_at (T := T) (w := w) (c := { c with
    stack := ⟨j, some (m.reader.value k)⟩ :: c.stack
    stats := { c.stats with shifts := c.stats.shifts + 1 } }) hat.input_eq
  refine ⟨c', ?_, j, _, hi.push hn, ?_⟩
  · rw [step, action]
    simp only [shift, token, Option.map_some]
    exact hp
  · rw [hat.stack_eq] at hc'
    exact hc'

/-- A token is put on the stack, if the table shifts it where the path leads. -/
theorem exists_shifted {k : K} (hd : o.Drives m.grammar start m.table)
    (hc : c.Bears o xs (k :: w)) (ha : ∀ {i}, o.Spells (xs.map Prod.fst) i →
      ∃ j, m.table.action? i (some (m.reader.terminal k)) = some (.shift j)) :
    ∃ c', m.step c = .continues c' ∧ c'.Bears o (xs ++ [m.reader.item k]) w := by
  obtain ⟨i, hi⟩ := hc.exists_spells
  obtain ⟨j, hj⟩ := ha hi
  exact exists_shift hd hc ⟨i, hi, hj⟩

/-- What has been read of a production gives way to its value. -/
theorem exists_reduced (ho : o.Lawful m.grammar start) (hd : o.Drives m.grammar start m.table)
    {p : Nat} {production : Production T N V} (hp : m.grammar.productions[p]? = some production)
    (hys : ys.map Prod.fst = production.rhs) (hc : c.Bears o (xs ++ ys) w)
    (ha : m.Acts o ((xs ++ ys).map Prod.fst) w (.reduce p)) :
    ∃ c', m.step c = .continues c' ∧
      c'.Bears o (xs ++ [(.nonterminal production.lhs, production.act (ys.map Prod.snd))]) w := by
  have action := action?_of_acts hc ha
  obtain ⟨i, stack, hi, hat⟩ := hc
  obtain ⟨i', hi', ha⟩ := ha
  obtain rfl := hi.carries.spells.unique hi'
  obtain ⟨hne, he⟩ := hd.reduce ha
  rw [← hat.stack_eq] at hi
  obtain ⟨production', left, k, j, hp', hγ, below, hn, hr⟩ :=
    exists_reduce ho hd hi.carries hne (ho.holds_of_expects he)
  cases hp.symm.trans hp'
  have length : production.rhs.length = ys.length := by rw [← hys, List.length_map]
  obtain ⟨k', bears, values⟩ := hi.pop ys
  rw [List.map_append, hys] at hγ
  obtain rfl := List.append_cancel_right hγ
  rw [length] at below hr
  obtain rfl := below.spells.unique bears.carries.spells
  rw [values] at hr
  have step : m.step c = m.reduce p c := by rw [Parser.step, action]
  exact ⟨_, step.trans hr, j, _, bears.push hn, rfl, hat.token_eq, hat.input_eq⟩

/-- A right-hand side on the stack gives way to its value, if the table reduces it where the path
leads. -/
theorem exists_completed (ho : o.Lawful m.grammar start) (hd : o.Drives m.grammar start m.table)
    {p : Nat} {production : Production T N V} (hp : m.grammar.productions[p]? = some production)
    (hys : ys.map Prod.fst = production.rhs) (hc : c.Bears o (xs ++ ys) w)
    (ha : ∀ {i}, o.Spells (xs.map Prod.fst ++ production.rhs) i →
      m.table.action? i (w.head?.map m.reader.terminal) = some (.reduce p)) :
    ∃ c', m.step c = .continues c' ∧
      c'.Bears o (xs ++ [(.nonterminal production.lhs, production.act (ys.map Prod.snd))]) w := by
  obtain ⟨i, hi⟩ := hc.exists_spells
  have path := hi
  rw [List.map_append, hys] at path
  exact exists_reduced ho hd hp hys hc ⟨i, hi, ha path⟩

/-- A sentence is accepted with its value, and nothing is left on the stack but its bottom. -/
theorem exists_accepted (hd : o.Drives m.grammar start m.table) {production : Production T N V}
    (hp : m.grammar.productions[start]? = some production) (hxs : xs.map Prod.fst = production.rhs)
    (hc : c.Bears o xs w) (ha : m.Acts o (xs.map Prod.fst) w .accept) :
    ∃ c', m.step c = .ends (.accepted (production.act (xs.map Prod.snd))) c' ∧
      c'.stack = [⟨0, none⟩] := by
  have action := action?_of_acts hc ha
  obtain ⟨i, stack, hi, hat⟩ := hc
  rw [← hat.stack_eq] at hi
  have length : production.rhs.length = xs.length := by rw [← hxs, List.length_map]
  have whole : o.Bears ([] ++ xs) i c.stack := hi
  obtain ⟨k, below, values⟩ := whole.pop xs
  have hi' : m.table.productions[m.table.startProduction]? =
      some ⟨production.lhs, production.rhs.length⟩ := by
    rw [hd.startProduction]
    exact getElem?_productions_of_drives hd hp
  have hp' : m.grammar.productions[m.table.startProduction]? = some production := by
    rw [hd.startProduction, hp]
  have all : c.stack.length = production.rhs.length + 1 := by
    rw [hi.carries.length_eq, ← hxs]
  have step : m.step c = m.accept c := by rw [Parser.step, action]
  rw [← values, ← length]
  refine ⟨_, step.trans (accept_eq hi' hp' all), ?_⟩
  rw [← length] at below
  exact below.eq_bottom

/-- Without a move the input is rejected. -/
theorem exists_rejected (hc : c.Bears o xs w)
    (h : ∀ action, m.Acts o (xs.map Prod.fst) w action → action.move? = none) :
    ∃ e, m.step c = .ends (.rejected e) c := by
  rw [step]
  cases ha : m.action? c with
  | none => exact ⟨_, rfl⟩
  | some action =>
      have none := h action (acts_of_action? hc ha)
      cases action with
      | shift j => cases none
      | reduce p => cases none
      | accept => cases none
      | error message conflicts ahead => exact ⟨_, rfl⟩

/-- An error of the table is reported. -/
theorem exists_reported {message : String} {conflicts : List (Action T)} {ahead : Lookahead T}
    (hc : c.Bears o xs w) (ha : m.Acts o (xs.map Prod.fst) w (.error message conflicts ahead)) :
    ∃ e, m.step c = .ends (.rejected e) c ∧ e.fault = .reported message := by
  rw [step, action?_of_acts hc ha]
  exact ⟨_, rfl, rfl⟩

/-- A parse begins with nothing on the stack and all tokens to be shifted, and it ends as the
steps from there do. -/
theorem exists_begun (hd : o.Drives m.grammar start m.table) (w : List K) :
    ∃ c₀ : Configuration K V E, c₀.Bears o [] w ∧
      ∀ {c c' : Configuration K V E} {how : Ending K T V E}, m.Goes c₀ c →
        m.step c = .ends how c' → ∃ steps, m.parse steps (w.map .ok) = some (how, c') := by
  obtain ⟨c₀, begun, hc₀⟩ := pull_at (T := T) (w := w)
    (c := (⟨[⟨0, none⟩], none, w.map .ok, {}, 0⟩ : Configuration K V E)) rfl
  refine ⟨c₀, ⟨0, _, .bottom, hc₀⟩, fun goes ends => ?_⟩
  obtain ⟨steps, hrun⟩ := goes.exists_run ends
  refine ⟨steps, ?_⟩
  rw [parse, begin, hd.start_eq, begun]
  exact hrun

end Parser

end BottomUp
