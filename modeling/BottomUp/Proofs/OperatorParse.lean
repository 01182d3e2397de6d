import BottomUp.Proofs.Climbing
import BottomUp.Proofs.OperatorTable
import BottomUp.Proofs.Steps
import Mathlib.Algebra.Group.Nat.Defs

/-!
# Parsers of operator grammars

A parser with the table of an operator grammar climbs.  Its stack bears a pile of
expressions with operators behind them, and above the pile what was read last.  Every step
of `Operators.climb` is a step of the parser: to shift an operand and reduce it to an
expression, to put an operation together on top of the pile, or to shift an operator that
the pile waits for.  Where two operators tie the table reports it, and where a token is in
the wrong place the table has no move, perhaps only after some reductions
(`leads_of_notMem`).

Hence a parse ends as climbing does (`exists_parse`).  With what is known of climbing, it
ends with the value of the one operation that fits, or else in a syntax error
(`parse_by_precedence`).
-/

namespace BottomUp

variable {K T N V E : Type}

/-! ## Climbing by the table -/

namespace Operators

/-- An expression on the stack. -/
def item (ops : Operators T N V) (r : Reader K T V) (t : Operation K) : Symbol T N × V :=
  (.nonterminal ops.expr, ops.value r t)

/-- A pile on the stack. -/
def items (ops : Operators T N V) (r : Reader K T V) : Pile K → List (Symbol T N × V)
  | [] => []
  | (t, o) :: pile =>
      items ops r pile ++ [ops.item r t, r.item o]

/-- The parse ends as the tokens turn out. -/
inductive Outcome.Shows (ops : Operators T N V) (r : Reader K T V) :
    Outcome K → Ending K T V E → Prop
  | found {t : Operation K} : Shows ops r (.found t) (.accepted (ops.whole [ops.value r t]))
  | tie {e : SyntaxError K T V} :
      e.fault = .reported "non-associative operator used associatively" →
      Shows ops r .tie (.rejected e)
  | malformed {e : SyntaxError K T V} : Shows ops r .malformed (.rejected e)

theorem waits_items {ops : Operators T N V} {r : Reader K T V} : ∀ {pile : Pile K},
    ops.Knows r pile → ops.Waits ((ops.items r pile).map Prod.fst)
  | [], _ => .nil
  | (_, _) :: _, h => by
      rw [items, List.map_append]
      exact (waits_items fun x hx => h x (List.mem_cons_of_mem _ hx)).more (h _ List.mem_cons_self)

variable [Ordered T] [Ordered N]

/-- The parser of the operators with a table. -/
abbrev parser (ops : Operators T N V) (table : ParseTable T N) (r : Reader K T V) :
    Parser K T N V :=
  ⟨ops.grammar, table, r⟩

/-- The parse goes on from there to such an end. -/
def Leads (ops : Operators T N V) (table : ParseTable T N) (r : Reader K T V)
    (c : Configuration K V E) (x : Outcome K) : Prop :=
  ∃ c' how c'', (ops.parser table r).Goes c c' ∧ (ops.parser table r).step c' = .ends how c'' ∧
    x.Shows ops r how

variable {ops : Operators T N V} {r : Reader K T V} {method : Method} {policy : Policy T}
  {verdict : Nat → Lookahead T → Verdict T} {table : ParseTable T N} {pile : Pile K}
  {t : Operation K} {k o : K} {w : List K} {c c' : Configuration K V E} {x : Outcome K}

theorem Leads.step (hs : (ops.parser table r).step c = .continues c')
    (h : ops.Leads table r c' x) : ops.Leads table r c x := by
  obtain ⟨d, how, d', hg, he, hx⟩ := h
  exact ⟨d, how, d', .step hs hg, he, hx⟩

omit [Ordered T] [Ordered N] in
theorem map_fst_items_cons {left : Operation K} :
    (ops.items r ((left, o) :: pile) ++ [ops.item r t]).map Prod.fst =
      (ops.items r pile).map Prod.fst ++
        [.nonterminal ops.expr, .terminal (r.terminal o), .nonterminal ops.expr] := by
  simp [items, item, Reader.item]

/-! ### Single steps -/

section

variable (hr : (ops.outline method).Resolved ops.grammar policy 0 verdict table)

include hr

/-- Where the table makes no move that the path allows, the input is rejected. -/
theorem leads_malformed {xs : List (Symbol T N × V)} (hc : c.Bears (ops.outline method) xs w)
    (h : ∀ action, (ops.parser table r).Acts (ops.outline method) (xs.map Prod.fst) w action →
      ops.Allows (xs.map Prod.fst) (w.head?.map r.terminal) action → action.move? = none) :
    ops.Leads table r c .malformed := by
  obtain ⟨e, hs⟩ := Parser.exists_rejected (m := ops.parser table r) hc fun action ha => by
    obtain ⟨i, hi, ha'⟩ := id ha
    exact h action ha (allows_of_action hr.drives hi ha')
  exact ⟨c, _, c, .refl, hs, .malformed⟩

/-- An operand is shifted where it is awaited. -/
theorem exists_operand (hp : ops.Knows r pile)
    (hk : r.terminal k = ops.atom) (hc : c.Bears (ops.outline method) (ops.items r pile) (k :: w)) :
    ∃ c', (ops.parser table r).step c = .continues c' ∧
      c'.Bears (ops.outline method) (ops.items r pile ++ [r.item k]) w := by
  refine Parser.exists_shifted (m := ops.parser table r) hr.drives hc fun hi => ?_
  show ∃ j, table.action? _ (some (r.terminal k)) = some (.shift j)
  rw [hk]
  exact action_operand hr (waits_items hp) hi

/-- An operand on the stack becomes an expression. -/
theorem exists_single (hk : r.terminal k = ops.atom)
    (hc : c.Bears (ops.outline method) (ops.items r pile ++ [r.item k]) w)
    (ha : (ops.parser table r).Acts (ops.outline method)
      ((ops.items r pile ++ [r.item k]).map Prod.fst) w (.reduce ops.singleNumber)) :
    ∃ c', (ops.parser table r).step c = .continues c' ∧
      c'.Bears (ops.outline method) (ops.items r pile ++ [ops.item r (.operand k)]) w := by
  have rhs : [r.item k].map Prod.fst = ops.single.rhs := by
    rw [List.map_singleton, Reader.item, hk]
    rfl
  exact Parser.exists_reduced (m := ops.parser table r) (ops.lawful method) hr.drives
    ops.getElem?_single rhs hc ha

/-- An operator behind an expression is shifted. -/
theorem exists_operator {j : Nat}
    (hc : c.Bears (ops.outline method) (ops.items r pile ++ [ops.item r t]) (o :: w))
    (ha : (ops.parser table r).Acts (ops.outline method)
      ((ops.items r pile ++ [ops.item r t]).map Prod.fst) (o :: w) (.shift j)) :
    ∃ c', (ops.parser table r).step c = .continues c' ∧
      c'.Bears (ops.outline method) (ops.items r ((t, o) :: pile)) w := by
  obtain ⟨c', hs, hc'⟩ := Parser.exists_shift (m := ops.parser table r) hr.drives hc ha
  rw [List.append_assoc] at hc'
  exact ⟨c', hs, hc'⟩

/-- An operation on the stack is put together. -/
theorem exists_join {left : Operation K} (ho : r.terminal o ∈ ops.operators)
    (hc : c.Bears (ops.outline method) (ops.items r ((left, o) :: pile) ++ [ops.item r t]) w)
    (ha : (ops.parser table r).Acts (ops.outline method)
      ((ops.items r ((left, o) :: pile) ++ [ops.item r t]).map Prod.fst) w
      (.reduce (ops.number (r.terminal o)))) :
    ∃ c', (ops.parser table r).step c = .continues c' ∧
      c'.Bears (ops.outline method) (ops.items r pile ++ [ops.item r (.join left o t)]) w := by
  rw [items, List.append_assoc] at hc ha
  exact Parser.exists_reduced (m := ops.parser table r) (ops.lawful method) hr.drives
    (getElem?_operation ho) rfl hc ha

/-! ### Unwinding -/

/-- Behind an expression a token that is no operator is rejected, perhaps after some
reductions. -/
theorem leads_of_notMem (ho : r.terminal o ∉ ops.operators) :
    ∀ {pile : Pile K} {t : Operation K} {c : Configuration K V E},
      ops.Knows r pile →
      c.Bears (ops.outline method) (ops.items r pile ++ [ops.item r t]) (o :: w) →
      ops.Leads table r c .malformed := by
  intro pile
  induction pile with
  | nil =>
      intro t c _ hc
      refine leads_malformed hr hc fun action _ allowed => ?_
      exact allowed.move?_of_notMem ho rfl fun p hp => absurd hp not_completed_expr
  | cons x pile ih =>
      intro t c hp hc
      obtain ⟨left, o'⟩ := x
      obtain ⟨ho', hp⟩ := knows_cons.mp hp
      have completed := Completed.operation (waits_items hp) ho'
      by_cases ha : (ops.parser table r).Acts (ops.outline method)
        ((ops.items r ((left, o') :: pile) ++ [ops.item r t]).map Prod.fst) (o :: w)
          (.reduce (ops.number (r.terminal o')))
      · obtain ⟨c', hs, hc'⟩ := exists_join hr ho' hc ha
        exact (ih hp hc').step hs
      · refine leads_malformed hr hc fun action acts allowed => ?_
        refine allowed.move?_of_notMem ho (by simp [item]) fun p hp he => ha ?_
        rw [map_fst_items_cons] at hp
        rw [hp.unique completed] at he
        exact he ▸ acts

variable (permits : ∀ p a, policy.reduceOn p a = true)

include permits

/-- At the end of the tokens what is piled up is put together and accepted. -/
theorem leads_unwindAll : ∀ {pile : Pile K} {t : Operation K} {c : Configuration K V E},
    ops.Knows r pile →
    c.Bears (ops.outline method) (ops.items r pile ++ [ops.item r t]) [] →
    ops.Leads table r c (.found (unwindAll pile t)) := by
  intro pile
  induction pile with
  | nil =>
      intro t c _ hc
      obtain ⟨i, hi⟩ := hc.exists_spells
      obtain ⟨c', hs, _⟩ := Parser.exists_accepted (m := ops.parser table r) hr.drives
        ops.getElem?_sentence rfl hc ⟨i, hi, action_accept hr hi⟩
      exact ⟨c, _, c', .refl, hs, .found⟩
  | cons x pile ih =>
      intro t c hp hc
      obtain ⟨left, o⟩ := x
      obtain ⟨ho, hp⟩ := knows_cons.mp hp
      obtain ⟨i, hi⟩ := hc.exists_spells
      have path := hi
      rw [map_fst_items_cons] at path
      have action := action_last hr permits (waits_items hp) ho path
      obtain ⟨c', hs, hc'⟩ := exists_join hr ho hc ⟨i, hi, action⟩
      exact (ih hp hc').step hs

/-- In front of an operator the parser unwinds the pile, and then it shifts the operator. -/
theorem leads_goOn (ho : r.terminal o ∈ ops.operators)
    (onward : ∀ {pile : Pile K} {c : Configuration K V E},
      ops.Knows r pile →
      c.Bears (ops.outline method) (ops.items r pile) w →
      ops.Leads table r c (ops.climb r pile w)) :
    ∀ {pile : Pile K} {t : Operation K} {c : Configuration K V E},
      ops.Knows r pile →
      c.Bears (ops.outline method) (ops.items r pile ++ [ops.item r t]) (o :: w) →
      ops.Leads table r c (ops.goOn r pile t (o :: w)) := by
  intro pile
  induction pile with
  | nil =>
      intro t c hp hc
      obtain ⟨i, hi⟩ := hc.exists_spells
      obtain ⟨j, ha⟩ := action_first hr hi ho
      obtain ⟨c', hs, hc'⟩ := exists_operator hr hc ⟨i, hi, ha⟩
      rw [goOn, if_pos ho, unwind?]
      exact (onward (knows_cons.mpr ⟨ho, hp⟩) hc').step hs
  | cons x pile ih =>
      intro t c hp hc
      obtain ⟨left, o'⟩ := x
      obtain ⟨ho', hp'⟩ := knows_cons.mp hp
      obtain ⟨i, hi⟩ := hc.exists_spells
      have path := hi
      rw [map_fst_items_cons] at path
      rcases admits_cases ho' ho with waits | admits | tie
      · obtain ⟨j, ha⟩ := action_right hr permits (waits_items hp') ho' ho path waits
        obtain ⟨c', hs, hc'⟩ := exists_operator hr hc ⟨i, hi, ha⟩
        rw [goOn, if_pos ho, unwind?, if_pos waits]
        exact (onward (knows_cons.mpr ⟨ho, hp⟩) hc').step hs
      · have ha := action_left hr permits (waits_items hp') ho' ho path admits
        obtain ⟨c', hs, hc'⟩ := exists_join hr ho' hc ⟨i, hi, ha⟩
        rw [goOn_join ho' fun _ h _ => by cases h; exact admits]
        exact (ih hp' hc').step hs
      · obtain ⟨conflicts, ha⟩ := action_tie hr permits (waits_items hp') ho' ho path tie
        obtain ⟨e, hs, hf⟩ := Parser.exists_reported (m := ops.parser table r) hc ⟨i, hi, ha⟩
        rw [goOn, if_pos ho, unwind?, if_neg tie.not_right, if_neg (tie.not_left ho' ho)]
        exact ⟨c, _, c, .refl, hs, .tie hf⟩

/-- Behind an operand on the stack the parser goes on as behind an expression. -/
theorem leads_operand (hp : ops.Knows r pile)
    (hk : r.terminal k = ops.atom)
    (hc : c.Bears (ops.outline method) (ops.items r pile ++ [r.item k]) w)
    (onward : ∀ {c : Configuration K V E},
      c.Bears (ops.outline method) (ops.items r pile ++ [ops.item r (.operand k)]) w →
      ops.Leads table r c x) (hw : ¬ ops.Ends (w.head?.map r.terminal) → x = .malformed) :
    ops.Leads table r c x := by
  have path : (ops.items r pile ++ [r.item k]).map Prod.fst =
      (ops.items r pile).map Prod.fst ++ [.terminal ops.atom] := by
    simp [Reader.item, hk]
  by_cases ha : (ops.parser table r).Acts (ops.outline method)
    ((ops.items r pile ++ [r.item k]).map Prod.fst) w (.reduce ops.singleNumber)
  · obtain ⟨c', hs, hc'⟩ := exists_single hr hk hc ha
    exact (onward hc').step hs
  · by_cases he : ops.Ends (w.head?.map r.terminal)
    · obtain ⟨i, hi⟩ := hc.exists_spells
      have path := path ▸ hi
      exact absurd ⟨i, hi, action_single hr permits (waits_items hp) path he⟩ ha
    · rw [hw he]
      refine leads_malformed hr hc fun action acts allowed => ?_
      rw [path] at allowed
      refine allowed.move?_of_operand (.single (waits_items hp)) (by simp) fun h => ha ?_
      exact h ▸ acts

/-- The parser ends as climbing does. -/
theorem leads_climb (hp : ops.Knows r pile)
    (hc : c.Bears (ops.outline method) (ops.items r pile) w) :
    ops.Leads table r c (ops.climb r pile w) := by
  induction hn : w.length using Nat.strong_induction_on generalizing w pile c with
  | _ n ih =>
    subst hn
    cases w with
    | nil =>
        rw [climb]
        refine leads_malformed hr hc fun action _ allowed => ?_
        exact allowed.move?_of_waits (waits_items hp) fun h => by cases h
    | cons k w =>
        rw [climb]
        split
        · rename_i hk
          obtain ⟨c', hs, hc'⟩ := exists_operand hr hp hk hc
          refine Leads.step hs ?_
          cases w with
          | nil =>
              have ends : ops.Ends none := fun _ h => by cases h
              refine leads_operand hr permits hp hk hc' (fun hc => ?_) fun h => absurd ends h
              rw [goOn]
              exact leads_unwindAll hr permits hp hc
          | cons o w =>
              by_cases ho : r.terminal o ∈ ops.operators
              · have ends : ops.Ends (some (r.terminal o)) := by
                  intro t h
                  cases h
                  exact ho
                have shorter : w.length < (k :: o :: w).length := by
                  rw [List.length_cons, List.length_cons]
                  omega
                exact leads_operand hr permits hp hk hc'
                  (leads_goOn hr permits ho (fun hp hc => ih _ shorter hp hc rfl) hp)
                  fun h => absurd ends h
              · rw [goOn, if_neg ho]
                exact leads_operand hr permits hp hk hc' (leads_of_notMem hr ho hp) fun _ => rfl
        · rename_i hk
          refine leads_malformed hr hc fun action _ allowed => ?_
          exact allowed.move?_of_waits (waits_items hp) fun h => hk (Option.some.inj h)

/-- A parse ends as climbing does. -/
theorem exists_parse (w : List K) : ∃ steps how c,
    (ops.parser table r).parse steps (w.map .ok : List (Except E K)) = some (how, c) ∧
      (ops.climb r [] w).Shows ops r how := by
  obtain ⟨c₀, begun, run⟩ := Parser.exists_begun (m := ops.parser table r) hr.drives w
  have nothing : ops.Knows r ([] : Pile K) := nofun
  obtain ⟨c', how, c, hg, hs, hx⟩ := leads_climb hr permits nothing begun
  obtain ⟨steps, ends⟩ := run hg hs
  exact ⟨steps, how, c, ends, hx⟩

end

/-! ## Operator precedence -/

/-- For every operator grammar, both methods and every policy that vetoes nothing there is a
table without conflicts, and with it a parser reads any tokens as the precedences say.  If an
operation fits that has these tokens, it is the only one and its value is accepted.  If the
tokens alternate and no operation fits, that is reported of a non-associative operator.  If
they do not alternate there is a syntax error. -/
theorem parse_by_precedence (ops : Operators T N V) (method : Method) {policy : Policy T}
    (permits : ∀ p a, policy.reduceOn p a = true) :
    ∃ table, (ops.grammar.compile method ops.start policy).table = .ok table ∧
      table.conflicts = [] ∧ ∀ (r : Reader K T V) (w : List K),
        (∀ t, ops.Fits r t → t.frontier = w →
          (∀ u, ops.Fits r u → u.frontier = w → u = t) ∧
          ∃ steps c, (⟨ops.grammar, table, r⟩ : Parser K T N V).parse steps
            (w.map .ok : List (Except E K)) = some (.accepted (ops.whole [ops.value r t]), c)) ∧
        (ops.Alternates r w → (¬ ∃ t, ops.Fits r t ∧ t.frontier = w) →
          ∃ steps e c, (⟨ops.grammar, table, r⟩ : Parser K T N V).parse steps
            (w.map .ok : List (Except E K)) = some (.rejected e, c) ∧
              e.fault = .reported "non-associative operator used associatively") ∧
        (¬ ops.Alternates r w →
          ∃ steps e c, (⟨ops.grammar, table, r⟩ : Parser K T N V).parse steps
            (w.map .ok : List (Except E K)) = some (.rejected e, c)) := by
  obtain ⟨table, verdict, ht, hr, hconflicts⟩ :=
    Grammar.exists_table_of_settled ops.validate_grammar (ops.settled method policy)
  refine ⟨table, ht, hconflicts, fun r w => ?_⟩
  obtain ⟨steps, how, c, hparse, shows⟩ := exists_parse (r := r) (E := E) hr permits w
  refine ⟨?_, ?_, ?_⟩
  · rintro t ht rfl
    refine ⟨fun u hu hf => ht.eq_of_frontier hu hf, steps, c, ?_⟩
    rw [climb_frontier ht] at shows
    cases shows
    exact hparse
  · intro alternates none_fits
    cases hc : ops.climb r [] w with
    | found t => exact absurd ⟨t, fits_of_climb hc⟩ none_fits
    | malformed => exact absurd hc (alternates.climb_ne [])
    | tie =>
        rw [hc] at shows
        cases shows with
        | tie hf => exact ⟨steps, _, c, hparse, hf⟩
  · intro disorder
    cases hc : ops.climb r [] w with
    | found t =>
        obtain ⟨fits, rfl⟩ := fits_of_climb hc
        exact absurd fits.alternates disorder
    | malformed =>
        rw [hc] at shows
        cases shows
        exact ⟨steps, _, c, hparse⟩
    | tie =>
        rw [hc] at shows
        cases shows with
        | tie _ => exact ⟨steps, _, c, hparse⟩

/-- Comparisons `3`, differences `1` and powers `2` of numbers `0`, the loosest first.  The
first do not associate, the second do to the left, and the third to the right. -/
def arithmetic : Operators Nat Nat Nat where
  start := 0
  expr := 1
  atom := 0
  operators := [1, 2, 3]
  groups := [⟨.nonAssoc, [3]⟩, ⟨.left, [1]⟩, ⟨.right, [2]⟩]
  whole values := values.headD 0
  operand values := values.headD 0
  join
    | 1, [a, _, b] => a - b
    | 2, [a, _, b] => a ^ b
    | 3, [a, _, b] => if a < b then 1 else 0
    | _, _ => 0
  start_ne := by decide
  nodup := by decide
  atom_notMem := by decide
  declared_nodup := by decide
  mem_declared := by decide

/-- Numbers, and operators by their terminals. -/
def literals : Reader (Nat ⊕ Nat) Nat Nat where
  terminal := Sum.elim (fun _ => 0) id
  value := Sum.elim id fun _ => 0

/-- `9 - 2 ^ 3 - 1` is `(9 - (2 ^ 3)) - 1`, `1 < 2 < 3` ties, and an operator alone is a syntax
error. -/
theorem parse_by_precedence_arithmetic : (∀ p a, ({} : Policy Nat).reduceOn p a = true) ∧
    ∃ table, (arithmetic.grammar.compile .slr 0 {}).table = .ok table ∧ table.conflicts = [] ∧
      (∃ steps c, (⟨arithmetic.grammar, table, literals⟩ : Parser _ Nat Nat Nat).parse steps
        ([.inl 9, .inr 1, .inl 2, .inr 2, .inl 3, .inr 1, .inl 1].map .ok :
          List (Except Empty (Nat ⊕ Nat))) = some (.accepted 0, c)) ∧
      (∃ steps e c, (⟨arithmetic.grammar, table, literals⟩ : Parser _ Nat Nat Nat).parse steps
        ([.inl 1, .inr 3, .inl 2, .inr 3, .inl 3].map .ok :
          List (Except Empty (Nat ⊕ Nat))) = some (.rejected e, c) ∧
          e.fault = .reported "non-associative operator used associatively") ∧
      ∃ steps e c, (⟨arithmetic.grammar, table, literals⟩ : Parser _ Nat Nat Nat).parse steps
        ([.inr 1].map .ok : List (Except Empty (Nat ⊕ Nat))) = some (.rejected e, c) := by
  have permits : ∀ p a, ({} : Policy Nat).reduceOn p a = true := fun _ _ => rfl
  obtain ⟨table, ht, hconflicts, reads⟩ :=
    parse_by_precedence (K := Nat ⊕ Nat) (E := Empty) arithmetic .slr permits
  refine ⟨permits, table, ht, hconflicts, ?_, ?_, ?_⟩
  · have found : arithmetic.climb literals []
        [.inl 9, .inr 1, .inl 2, .inr 2, .inl 3, .inr 1, .inl 1] =
        .found (.join (.join (.operand (.inl 9)) (.inr 1)
          (.join (.operand (.inl 2)) (.inr 2) (.operand (.inl 3)))) (.inr 1)
            (.operand (.inl 1))) := by rfl
    obtain ⟨fits, frontier⟩ := fits_of_climb found
    exact ((reads literals _).1 _ fits frontier).2
  · have ties : arithmetic.climb literals [] [.inl 1, .inr 3, .inl 2, .inr 3, .inl 3] = .tie := by
      rfl
    refine (reads literals _).2.1 ?_ ?_
    · exact .more rfl (by decide) (.more rfl (by decide) (.single rfl))
    · rintro ⟨t, fits, frontier⟩
      have found := climb_frontier fits
      rw [frontier, ties] at found
      cases found
  · refine (reads literals _).2.2 fun h => ?_
    cases h with
    | single h => cases h

end Operators

end BottomUp
