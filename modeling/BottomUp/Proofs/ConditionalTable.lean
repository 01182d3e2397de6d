import BottomUp.Proofs.Conditionals
import BottomUp.Proofs.Exactness
import BottomUp.Proofs.Simulation

/-!
# The tables of conditionals

A path of the automaton of conditionals goes over conditions, and over first branches with an
`else` behind them, to where a statement is awaited (`Awaits`).  What can come behind the
statement is the end of the input, or an `else` if the statement may be a first branch.

Only an `else` behind an `if` with one branch makes two actions compete
(`Continues.else_of_completed`).  No precedence is declared, so the shift is taken and a
conflict is recorded; with the veto there is no reduction to compete with.  Either way the
`else` is shifted (`action_else`), and nothing else depends on the policy.
-/

namespace BottomUp.Conditional

variable {V : Type}

/-! ## Paths -/

/-- A statement is awaited, and this can come behind it. -/
inductive Awaits : List (Symbol String String) → Lookahead String → Prop
  /-- The whole input is a statement. -/
  | start : Awaits [] none
  /-- Behind a condition there is the only branch. -/
  | only {π : List (Symbol String String)} {a : Lookahead String} : Awaits π a →
      Awaits (π ++ [.terminal "if", .terminal "c"]) a
  /-- Behind a condition there is the first branch. -/
  | first {π : List (Symbol String String)} {a : Lookahead String} : Awaits π a →
      Awaits (π ++ [.terminal "if", .terminal "c"]) (some "else")
  /-- Behind an `else` there is the second branch. -/
  | second {π : List (Symbol String String)} {a : Lookahead String} : Awaits π a →
      Awaits (π ++ [.terminal "if", .terminal "c", statement, .terminal "else"]) a

/-- A terminal can go on behind a path. -/
inductive Continues : List (Symbol String String) → String → Prop
  | opening {π : List (Symbol String String)} {a : Lookahead String} : Awaits π a →
      Continues π "if"
  | condition {π : List (Symbol String String)} {a : Lookahead String} : Awaits π a →
      Continues (π ++ [.terminal "if"]) "c"
  | otherwise {π : List (Symbol String String)} {a : Lookahead String} : Awaits π a →
      Continues (π ++ [.terminal "if", .terminal "c", statement]) "else"
  | simple {π : List (Symbol String String)} {a : Lookahead String} : Awaits π a →
      Continues π "s"

/-- A production other than the first has been read, and this can come behind it. -/
inductive Completed : List (Symbol String String) → Lookahead String → Nat → Prop
  | short {π : List (Symbol String String)} {a : Lookahead String} : Awaits π a →
      Completed (π ++ [.terminal "if", .terminal "c", statement]) a 1
  | full {π : List (Symbol String String)} {a : Lookahead String} : Awaits π a →
      Completed (π ++ [.terminal "if", .terminal "c", statement, .terminal "else", statement]) a 2
  | simple {π : List (Symbol String String)} {a : Lookahead String} : Awaits π a →
      Completed (π ++ [.terminal "s"]) a 3

variable {π γ δ right : List (Symbol String String)} {a b : Lookahead String} {i j p q d : Nat}
  {t n : String} {μ : Meaning V}

theorem Awaits.getLast?_cases (h : Awaits π a) :
    π = [] ∨ π.getLast? = some (.terminal "c") ∨ π.getLast? = some (.terminal "else") := by
  cases h with
  | start => exact .inl rfl
  | only _ => exact .inr (.inl (by simp))
  | first _ => exact .inr (.inl (by simp))
  | second _ => exact .inr (.inr (by simp))

/-- What is left of a nonterminal is a path to where a statement is awaited. -/
theorem awaits_of_chain {left : List (Symbol String String)}
    (h : (grammar μ).Chain "S" left n right) :
    (∃ a, Awaits left a) ∧ (n = "S" → left = []) := by
  induction h with
  | start => exact ⟨⟨none, .start⟩, fun _ => rfl⟩
  | @down left right before after production n _ hp hr ih =>
      obtain ⟨⟨a, hw⟩, hleft⟩ := ih
      obtain ⟨p, hp⟩ := List.getElem?_of_mem hp
      rcases getElem?_cases hp with ⟨_, rfl⟩ | ⟨_, rfl⟩ | ⟨_, rfl⟩ | ⟨_, rfl⟩
      · obtain rfl : left = [] := hleft rfl
        rcases before with _ | ⟨_, before⟩
        · exact ⟨⟨_, hw⟩, fun _ => rfl⟩
        · simp [sentence] at hr
      · rcases before with _ | ⟨_, _ | ⟨_, _ | ⟨_, before⟩⟩⟩
        · simp [short] at hr
        · simp [short] at hr
        · simp only [short, List.cons_append, List.nil_append, List.cons.injEq,
            Symbol.nonterminal.injEq] at hr
          obtain ⟨rfl, rfl, rfl, _⟩ := hr
          exact ⟨⟨_, hw.only⟩, fun he => absurd he (by decide)⟩
        · simp [short] at hr
      · rcases before with _ | ⟨_, _ | ⟨_, _ | ⟨_, _ | ⟨_, _ | ⟨_, before⟩⟩⟩⟩⟩
        · simp [full] at hr
        · simp [full] at hr
        · simp only [full, List.cons_append, List.nil_append, List.cons.injEq,
            Symbol.nonterminal.injEq] at hr
          obtain ⟨rfl, rfl, rfl, _⟩ := hr
          exact ⟨⟨_, hw.first⟩, fun he => absurd he (by decide)⟩
        · simp [full] at hr
        · simp only [full, List.cons_append, List.nil_append, List.cons.injEq,
            Symbol.nonterminal.injEq] at hr
          obtain ⟨rfl, rfl, rfl, rfl, rfl, _⟩ := hr
          exact ⟨⟨_, hw.second⟩, fun he => absurd he (by decide)⟩
        · simp [full] at hr
      · rcases before with _ | ⟨_, before⟩
        · simp [simple] at hr
        · simp [simple] at hr

/-- A chain leads to where a statement is awaited, and what can come behind the statement begins
what the chain leaves to the right. -/
theorem Awaits.exists_chain (h : Awaits π a) (μ : Meaning V) :
    ∃ right, ∃ w : List String, (grammar μ).Chain "S" π "St" right ∧
      (grammar μ).Derives right (w.map .terminal) ∧ w.head? = a := by
  induction h with
  | start =>
      have split : (sentence μ).rhs = [] ++ statement :: [] := rfl
      exact ⟨[], [], .down .start (List.mem_of_getElem? getElem?_sentence) split, .refl, rfl⟩
  | only _ ih =>
      obtain ⟨right, w, hc, hd, hw⟩ := ih
      have split : (short μ).rhs = [.terminal "if", .terminal "c"] ++ statement :: [] := rfl
      exact ⟨right, w, .down hc (List.mem_of_getElem? getElem?_short) split, hd, hw⟩
  | first _ ih =>
      obtain ⟨right, w, hc, hd, _⟩ := ih
      have split : (full μ).rhs =
          [.terminal "if", .terminal "c"] ++ statement :: [.terminal "else", statement] := rfl
      have other : (grammar μ).Derives [statement] [.terminal "s"] :=
        .of_production (List.mem_of_getElem? getElem?_simple)
      have rest := (other.append hd).between [.terminal "else"] []
      exact ⟨_, "else" :: "s" :: w, .down hc (List.mem_of_getElem? getElem?_full) split,
        by simpa using rest, rfl⟩
  | second _ ih =>
      obtain ⟨right, w, hc, hd, hw⟩ := ih
      have split : (full μ).rhs =
          [.terminal "if", .terminal "c", statement, .terminal "else"] ++ statement :: [] := rfl
      exact ⟨right, w, .down hc (List.mem_of_getElem? getElem?_full) split, hd, hw⟩

/-! ## What is read, and what goes on -/

theorem Awaits.getLast?_ne (h : Awaits π a) {s : Symbol String String} (hc : s ≠ .terminal "c")
    (he : s ≠ .terminal "else") : π.getLast? ≠ some s := by
  intro hs
  rcases h.getLast?_cases with rfl | hl | hl
  · cases hs
  · exact hc (Option.some.inj (hs.symm.trans hl))
  · exact he (Option.some.inj (hs.symm.trans hl))

theorem Completed.exists_production (h : Completed γ a p) (μ : Meaning V) :
    ∃ π production, Awaits π a ∧ (grammar μ).productions[p]? = some production ∧
      production.lhs = "St" ∧ p ≠ 0 ∧ γ = π ++ production.rhs := by
  cases h with
  | short hπ => exact ⟨_, _, hπ, getElem?_short, rfl, by decide, rfl⟩
  | full hπ => exact ⟨_, _, hπ, getElem?_full, rfl, by decide, rfl⟩
  | simple hπ => exact ⟨_, _, hπ, getElem?_simple, rfl, by decide, rfl⟩

theorem Completed.ne_zero (h : Completed γ a p) : p ≠ 0 := by
  cases h <;> decide

/-- What goes on is the next terminal of a production. -/
theorem Continues.exists_production (h : Continues γ t) (μ : Meaning V) :
    ∃ π a, ∃ p : Nat, ∃ production : Production String String V, ∃ symbols rest,
      Awaits π a ∧ (grammar μ).productions[p]? = some production ∧ production.lhs = "St" ∧
        production.rhs = symbols ++ .terminal t :: rest ∧ γ = π ++ symbols := by
  cases h with
  | opening hπ =>
      exact ⟨_, _, _, _, [], _, hπ, getElem?_short, rfl, rfl, (List.append_nil _).symm⟩
  | condition hπ =>
      exact ⟨_, _, _, _, [.terminal "if"], _, hπ, getElem?_short, rfl, rfl, rfl⟩
  | otherwise hπ =>
      exact ⟨_, _, _, _, [.terminal "if", .terminal "c", statement], _, hπ, getElem?_full, rfl,
        rfl, rfl⟩
  | simple hπ =>
      exact ⟨_, _, _, _, [], _, hπ, getElem?_simple, rfl, rfl, (List.append_nil _).symm⟩

/-- Behind a production a statement is not awaited. -/
theorem Completed.not_awaits (h : Completed γ a p) : ¬ Awaits γ b := by
  intro hw
  cases h with
  | short _ => exact hw.getLast?_ne (s := statement) nofun nofun (by simp)
  | full _ => exact hw.getLast?_ne (s := statement) nofun nofun (by simp)
  | simple _ => exact hw.getLast?_ne (s := .terminal "s") (by decide) (by decide) (by simp)

/-- A path shows which production has been read. -/
theorem Completed.unique (h : Completed γ a p) (h' : Completed γ b q) : p = q := by
  generalize hw : γ = δ at h'
  cases h with
  | short _ =>
      cases h' with
      | short _ => rfl
      | full _ => simpa using congrArg (fun γ => γ.dropLast.getLast?) hw
      | simple _ => simpa using congrArg List.getLast? hw
  | full _ =>
      cases h' with
      | short _ => simpa using congrArg (fun γ => γ.dropLast.getLast?) hw
      | full _ => rfl
      | simple _ => simpa using congrArg List.getLast? hw
  | simple _ =>
      cases h' with
      | short _ => simpa using congrArg List.getLast? hw
      | full _ => simpa using congrArg List.getLast? hw
      | simple _ => rfl

/-- Only an `else` goes on behind what has been read, and only behind an `if` with one
branch. -/
theorem Continues.else_of_completed (h : Continues γ t) (hc : Completed γ a p) :
    t = "else" ∧ p = 1 := by
  generalize hw : γ = δ at hc
  cases h with
  | opening hγ => exact absurd hγ (hw ▸ hc).not_awaits
  | simple hγ => exact absurd hγ (hw ▸ hc).not_awaits
  | condition _ =>
      cases hc with
      | short _ => simpa using congrArg List.getLast? hw
      | full _ => simpa using congrArg List.getLast? hw
      | simple _ => simpa using congrArg List.getLast? hw
  | otherwise _ =>
      cases hc with
      | short _ => exact ⟨rfl, rfl⟩
      | full _ => simpa using congrArg (fun γ => γ.dropLast.getLast?) hw
      | simple _ => simpa using congrArg List.getLast? hw

/-- Behind an opening `if` there is a condition first. -/
theorem not_completed_opening : ¬ Completed (π ++ [.terminal "if"]) a p := by
  intro h
  generalize hw : π ++ [.terminal "if"] = δ at h
  cases h with
  | short _ => simpa using congrArg List.getLast? hw
  | full _ => simpa using congrArg List.getLast? hw
  | simple _ => simpa using congrArg List.getLast? hw

theorem not_completed_statement : ¬ Completed [statement] a p := by
  intro h
  generalize hw : [statement] = δ at h
  cases h with
  | short _ => simpa using congrArg List.length hw
  | full _ => simpa using congrArg List.length hw
  | simple _ => simpa using congrArg List.getLast? hw

/-! ## The automaton -/

theorem mem_nonterminals : n ∈ (grammar μ).nonterminals ↔ n = "S" ∨ n = "St" := by
  simp [grammar, Grammar.ofClauses, Grammar.write, Grammar.add, Grammar.empty,
    Production.mentions, Symbol.nonterminal?, @eq_comm _ "St"]

/-- The grammar is fit for a table. -/
theorem validate_grammar (μ : Meaning V) : (grammar μ).validate "S" = .ok 0 := by
  have one : (grammar μ).alternatives "S" = [0] := rfl
  have several : (grammar μ).alternatives "St" = [1, 2, 3] := rfl
  have full : (grammar μ).emptyReachable? "S" = none := by
    refine List.find?_eq_none.mpr fun n hn => ?_
    rcases mem_nonterminals.mp hn with rfl | rfl
    · simp [one]
    · simp [several]
  have unmentioned : (grammar μ).isReferenced "S" = false := rfl
  have once : (grammar μ).precedence.duplicate? = none := rfl
  simp [Grammar.validate, mem_nonterminals, one, full, unmentioned, once]

/-- The automaton of the grammar. -/
abbrev outline (μ : Meaning V) (method : Method) : Outline String String :=
  (grammar μ).outline method "S" 0

/-- What that automaton has for a cell. -/
abbrev candidates (μ : Meaning V) (method : Method) (veto : Bool) (i : Nat)
    (a : Lookahead String) : Candidates :=
  (outline μ method).candidates (grammar μ) (policy veto) 0 i a

theorem starts (μ : Meaning V) : (grammar μ).Starts "S" 0 :=
  Grammar.starts_of_validate (validate_grammar μ)

theorem lawful (μ : Meaning V) (method : Method) : (outline μ method).Lawful (grammar μ) 0 :=
  Grammar.lawful_outline (starts μ) method

variable {method : Method} {veto : Bool}

/-- Behind a path to where a statement is awaited there is a path over each right-hand side, and
that is expected before what can come behind the statement. -/
theorem Awaits.exists_spells (h : Awaits π a) (method : Method)
    {production : Production String String V} (hp : (grammar μ).productions[p]? = some production)
    (hl : production.lhs = "St") {symbols rest : List (Symbol String String)}
    (hr : production.rhs = symbols ++ rest) :
    ∃ i, (outline μ method).Spells (π ++ symbols) i ∧
      (outline μ method).expects i p symbols.length a := by
  obtain ⟨right, w, hc, hw, rfl⟩ := h.exists_chain μ
  exact (lawful μ method).exists_spells_production (starts μ) hc hw hp hl hr

/-- An item belongs to the first production at the beginning of a path, or to another one
behind a path to where a statement is awaited. -/
theorem holds_cases (hγ : (outline μ method).Spells γ i) (h : (outline μ method).holds i p d) :
    (p = 0 ∧ γ = (sentence μ).rhs.take d) ∨ ∃ π a, Awaits π a ∧
      ((p = 1 ∧ γ = π ++ (short μ).rhs.take d) ∨ (p = 2 ∧ γ = π ++ (full μ).rhs.take d) ∨
        p = 3 ∧ γ = π ++ (simple μ).rhs.take d) := by
  obtain ⟨right, production, left, hp, _, hc, rfl⟩ := Grammar.exists_valid (starts μ) hγ h
  obtain ⟨⟨a, hw⟩, hleft⟩ := awaits_of_chain hc
  rcases getElem?_cases hp with ⟨rfl, rfl⟩ | ⟨rfl, rfl⟩ | ⟨rfl, rfl⟩ | ⟨rfl, rfl⟩
  · exact .inl ⟨rfl, by rw [hleft rfl, List.nil_append]⟩
  · exact .inr ⟨left, a, hw, .inl ⟨rfl, rfl⟩⟩
  · exact .inr ⟨left, a, hw, .inr (.inl ⟨rfl, rfl⟩)⟩
  · exact .inr ⟨left, a, hw, .inr (.inr ⟨rfl, rfl⟩)⟩

/-- There is a transition only on what goes on behind the path. -/
theorem continues_of_next (hγ : (outline μ method).Spells γ i)
    (hn : (outline μ method).next? i (.terminal t) = some j) : Continues γ t := by
  obtain ⟨p, d, hi, hs⟩ := (lawful μ method).exists_holds_of_next hn
  rcases holds_cases hγ hi with ⟨rfl, _⟩ | ⟨π, a, hπ, h⟩
  · rw [Grammar.rhs_of_getElem? getElem?_sentence] at hs
    rcases d with _ | d <;> cases hs
  · rcases h with ⟨rfl, rfl⟩ | ⟨rfl, rfl⟩ | ⟨rfl, rfl⟩
    · rw [Grammar.rhs_of_getElem? getElem?_short] at hs
      rcases d with _ | _ | _ | d <;> cases hs
      · rw [List.take_zero, List.append_nil]
        exact .opening hπ
      · exact .condition hπ
    · rw [Grammar.rhs_of_getElem? getElem?_full] at hs
      rcases d with _ | _ | _ | _ | _ | d <;> cases hs
      · rw [List.take_zero, List.append_nil]
        exact .opening hπ
      · exact .condition hπ
      · exact .otherwise hπ
    · rw [Grammar.rhs_of_getElem? getElem?_simple] at hs
      rcases d with _ | d <;> cases hs
      rw [List.take_zero, List.append_nil]
      exact .simple hπ

/-- There is a transition on whatever goes on behind the path. -/
theorem Continues.exists_next (h : Continues γ t) (hγ : (outline μ method).Spells γ i) :
    ∃ j, (outline μ method).next? i (.terminal t) = some j := by
  obtain ⟨π, a, p, production, symbols, rest, hπ, hp, hl, hr, rfl⟩ := h.exists_production μ
  have split : production.rhs = (symbols ++ [.terminal t]) ++ rest := by simp [hr]
  obtain ⟨j, hj, _⟩ := hπ.exists_spells method hp hl split
  rw [← List.append_assoc] at hj
  exact ⟨j, hγ.next_eq hj⟩

/-- What is read to the end is the first production or another one. -/
theorem completed_of_holds (hγ : (outline μ method).Spells γ i)
    (h : (outline μ method).holds i p ((grammar μ).rhs p).length) :
    (p = 0 ∧ γ = [statement]) ∨ ∃ a, Completed γ a p := by
  rcases holds_cases hγ h with ⟨rfl, rfl⟩ | ⟨π, a, hπ, h⟩
  · rw [Grammar.rhs_of_getElem? getElem?_sentence, List.take_length]
    exact .inl ⟨rfl, rfl⟩
  · refine .inr ⟨a, ?_⟩
    rcases h with ⟨rfl, rfl⟩ | ⟨rfl, rfl⟩ | ⟨rfl, rfl⟩
    · rw [Grammar.rhs_of_getElem? getElem?_short, List.take_length]
      exact .short hπ
    · rw [Grammar.rhs_of_getElem? getElem?_full, List.take_length]
      exact .full hπ
    · rw [Grammar.rhs_of_getElem? getElem?_simple, List.take_length]
      exact .simple hπ

theorem Completed.expects (h : Completed γ a p) (hγ : (outline μ method).Spells γ i) :
    (outline μ method).expects i p ((grammar μ).rhs p).length a := by
  obtain ⟨π, production, hπ, hp, hl, _, rfl⟩ := h.exists_production μ
  obtain ⟨j, hj, he⟩ := hπ.exists_spells method hp hl (List.append_nil _).symm
  rw [Grammar.rhs_of_getElem? hp, hγ.unique hj]
  exact he

/-! ## Candidates -/

/-- Only an `if` with one branch may not be reduced, and only before an `else`. -/
theorem permits (h : p = 1 → a ≠ some "else") : (policy veto).reduceOn p a = true := by
  cases veto with
  | false => rfl
  | true =>
      by_cases hp : p = 1
      · simp [policy, h hp]
      · simp [policy, hp]

section

variable (hγ : (outline μ method).Spells γ i)

include hγ

theorem completed_of_mem_reduces (hp : p ∈ (candidates μ method veto i a).reduces) :
    ∃ b, Completed γ b p := by
  obtain ⟨hne, he, _⟩ := hp
  rcases completed_of_holds hγ ((lawful μ method).holds_of_expects he) with ⟨rfl, _⟩ | hc
  · exact absurd rfl hne
  · exact hc

/-- Nothing is reduced where nothing is read to the end. -/
theorem reduces_eq_empty (h : ∀ b p, ¬ Completed γ b p) :
    (candidates μ method veto i a).reduces = ∅ := by
  refine Set.eq_empty_iff_forall_notMem.mpr fun p hp => ?_
  obtain ⟨b, hc⟩ := completed_of_mem_reduces hγ hp
  exact h b p hc

/-- What is read to the end is reduced before what can come behind it, if that is no `else` that
an `if` with one branch can have. -/
theorem reduces_eq_singleton (h : Completed γ a p) (ha : p = 1 → a ≠ some "else") :
    (candidates μ method veto i a).reduces = {p} := by
  refine Set.eq_singleton_iff_unique_mem.mpr ⟨⟨h.ne_zero, h.expects hγ, permits ha⟩, ?_⟩
  intro q hq
  obtain ⟨_, hc⟩ := completed_of_mem_reduces hγ hq
  exact hc.unique h

/-- The input is accepted at its end, when all of it is a statement. -/
theorem accept_iff : (candidates μ method veto i a).accept ↔ a = none ∧ γ = [statement] := by
  constructor
  · intro ⟨ha, he⟩
    refine ⟨ha, ?_⟩
    rcases completed_of_holds hγ ((lawful μ method).holds_of_expects he) with ⟨_, h⟩ | ⟨_, hc⟩
    · exact h
    · exact absurd rfl hc.ne_zero
  · rintro ⟨rfl, rfl⟩
    exact ⟨rfl, (lawful μ method).expects_whole hγ⟩

end

/-- No precedence is declared. -/
theorem unranked (t : String) (p : Nat) :
    (grammar μ).Unranked t p (.undeclaredPrecedence t) :=
  .terminal rfl

/-- Each cell has a verdict, because the shift is taken for want of a precedence. -/
theorem settled {cell : Nat × Lookahead String}
    (hm : cell ∈ (outline μ method).scan (grammar μ))
    {r : Except (CompileError String String) (Verdict String)}
    (h : (candidates μ method veto cell.1 cell.2).Settles (grammar μ) (policy veto) cell.1 cell.2
      r) : ∃ v, r = .ok v := by
  obtain ⟨γ, hγ⟩ := Grammar.exists_spells_outline (Outline.mem_scan.mp hm).1
  cases h with
  | contested ha hp =>
      obtain ⟨_, rfl⟩ := (accept_iff hγ).mp ha
      rw [reduces_eq_empty hγ fun _ _ => not_completed_statement] at hp
      exact absurd hp.1 (Set.notMem_empty _)
  | unranked _ _ _ hs => cases veto <;> cases hs
  | accept | unexpected | shift | reduce | tighter | looser | left | right | nonAssoc
  | defaulted => exact ⟨_, rfl⟩

/-- Both methods have a table, with the veto and without. -/
theorem exists_table (μ : Meaning V) (method : Method) (veto : Bool) : ∃ table verdict,
    ((grammar μ).compile method "S" (policy veto)).table = .ok table ∧
      (outline μ method).Resolved (grammar μ) (policy veto) 0 verdict table := by
  rcases Grammar.resolved_or_fails (validate_grammar μ) method (policy veto) with h | ⟨e, _, hf⟩
  · exact h
  · obtain ⟨cell, hm, hs⟩ := hf.exists_settles
    obtain ⟨v, he⟩ := settled hm hs
    cases he

/-! ## What the tables do -/

section

variable {verdict : Nat → Lookahead String → Verdict String} {table : ParseTable String String}
  (hr : (outline μ method).Resolved (grammar μ) (policy veto) 0 verdict table)

include hr

/-- What is not read to the end is gone on with. -/
theorem action_shift (hi : (outline μ method).Spells γ i) (hγ : ∀ b p, ¬ Completed γ b p)
    (hc : Continues γ t) : ∃ j, table.action? i (some t) = some (.shift j) := by
  obtain ⟨j, hn⟩ := hc.exists_next hi
  exact ⟨j, hr.action_shift (lawful μ method) hn (reduces_eq_empty hi hγ)⟩

/-- An `else` is shifted behind an `if` with one branch, whatever else could be done. -/
theorem action_else (hπ : Awaits π a)
    (hi : (outline μ method).Spells (π ++ [.terminal "if", .terminal "c", statement]) i) :
    ∃ j, table.action? i (some "else") = some (.shift j) := by
  obtain ⟨j, hn⟩ := (Continues.otherwise hπ).exists_next hi
  have reduced {p : Nat} (hp : p ∈ (candidates μ method veto i (some "else")).reduces) :
      p = 1 := by
    obtain ⟨_, hc⟩ := completed_of_mem_reduces hi hp
    exact hc.unique (.short hπ)
  by_cases compete : 1 ∈ (candidates μ method veto i (some "else")).reduces
  · -- for want of a precedence
    have least : IsLeast (candidates μ method veto i (some "else")).reduces 1 :=
      ⟨compete, fun p hp => Nat.le_of_eq (reduced hp).symm⟩
    have shifts : (policy veto).shiftOnUndeclared = true := by cases veto <;> rfl
    have shift : .shift j ∈ (candidates μ method veto i (some "else")).actions String :=
      Candidates.shift_mem_actions.mpr hn
    exact ⟨j, hr.action_of_settles (lawful μ method)
      ((lawful μ method).mem_scan_of_mem_actions shift)
      (.defaulted Outline.not_accept_some ⟨rfl, hn, least⟩ (unranked _ _) shifts)⟩
  · have nothing : (candidates μ method veto i (some "else")).reduces = ∅ :=
      Set.eq_empty_iff_forall_notMem.mpr fun p hp => compete (reduced hp ▸ hp)
    exact ⟨j, hr.action_shift (lawful μ method) hn nothing⟩

/-- A statement that makes up all of the input is accepted. -/
theorem action_accept (hi : (outline μ method).Spells [statement] i) :
    table.action? i none = some .accept :=
  hr.action_accept (lawful μ method) ((accept_iff hi).mpr ⟨rfl, rfl⟩)
    (reduces_eq_empty hi fun _ _ => not_completed_statement)

/-- What is read to the end is reduced, but for an `if` with one branch before an `else`. -/
theorem action_completed (hc : Completed γ a p) (hi : (outline μ method).Spells γ i)
    (ha : p = 1 → a ≠ some "else") : table.action? i a = some (.reduce p) := by
  have shift : (candidates μ method veto i a).shift? = none := by
    refine Option.eq_none_iff_forall_ne_some.mpr fun j hj => ?_
    obtain ⟨t, rfl, hn⟩ := Option.bind_eq_some_iff.mp hj
    obtain ⟨rfl, rfl⟩ := (continues_of_next hi hn).else_of_completed hc
    exact ha rfl rfl
  have accept : ¬ (candidates μ method veto i a).accept := by
    intro h
    obtain ⟨_, rfl⟩ := (accept_iff hi).mp h
    exact not_completed_statement hc
  exact hr.action_reduce (lawful μ method) accept shift (reduces_eq_singleton hi hc ha)

end

end BottomUp.Conditional
