import BottomUp.Proofs.Completion
import BottomUp.Proofs.Exactness
import BottomUp.Proofs.Restriction

/-!
# Productions out of reach

A grammar may hold productions that its start symbol does not reach.  The automaton of the
start symbol does not see them, and neither do the lookaheads of LR(1) items.  A FOLLOW set
does: it is read off all productions, so one that is out of reach may bring a terminal into
the FOLLOW set of a nonterminal that is within reach (`Grammar.Gains`), and then the SLR
table reduces where it did not before.

Everything else stays (`Grammar.compile_add_unreachable`): the number of states, the gotos,
what is done at the end of the input, which no such production brings in, and what is done
on a terminal that is not gained.  A terminal that only the further productions have is never
shifted and never accepted, so its cells cannot fail and record no conflict.
-/

namespace BottomUp

variable {T N V : Type} [Ordered T] [Ordered N]

/-! ## What follows what is inside -/

namespace Grammar.Extends

variable {g g' : Grammar T N V} {inside : N → Prop} {start n m lhs : N}
  {rest : List (Symbol T N)}

theorem occurs (h : g.Extends g' inside) (ho : (lhs, rest) ∈ g.occurrences n) :
    (lhs, rest) ∈ g'.occurrences n := by
  obtain ⟨p, hp, hl, hr⟩ := mem_occurrences.mp ho
  exact mem_occurrences.mpr ⟨p, h.mem hp, hl, hr⟩

/-- Where an inside nonterminal is the left-hand side, everything around is inside. -/
theorem occurs_of_inside (h : g.Extends g' inside) (ho : (lhs, rest) ∈ g'.occurrences n)
    (hl : inside lhs) :
    (lhs, rest) ∈ g.occurrences n ∧ inside n ∧ Symbol.AllInside inside rest := by
  obtain ⟨p, hp, rfl, before, hr⟩ := mem_occurrences.mp ho
  have hp := h.mem_of_inside hp hl
  have all := h.closed hp hl
  rw [hr] at all
  exact ⟨mem_occurrences.mpr ⟨p, hp, rfl, before, hr⟩, all n (by simp),
    fun m hm => all m (by simp [hm])⟩

theorem owned (h : g.Extends g' inside) (ho : Generated g.owners [n] m) :
    Generated g'.owners [n] m := by
  induction ho with
  | seed hm => exact .seed hm
  | step _ hl ih =>
      obtain ⟨rest, ho, hv⟩ := mem_owners.mp hl
      exact ih.step (mem_owners.mpr ⟨rest, h.occurs ho, h.vanishes hv⟩)

/-- What owns something and is inside owns it in the first grammar. -/
theorem owned_of_inside (h : g.Extends g' inside) (ho : Generated g'.owners [n] m)
    (hm : inside m) : Generated g.owners [n] m := by
  induction ho with
  | seed hs => exact .seed hs
  | step _ hl ih =>
      obtain ⟨rest, ho, hv⟩ := mem_owners.mp hl
      obtain ⟨ho, hn, hr⟩ := h.occurs_of_inside ho hm
      exact (ih hn).step (mem_owners.mpr ⟨rest, ho, (h.vanishes_iff hr).mp hv⟩)

/-- What follows a nonterminal still follows it. -/
theorem follows (h : g.Extends g' inside) {a : Lookahead T}
    (ha : a ∈ (FollowSets.of g start).lookaheads n) :
    a ∈ (FollowSets.of g' start).lookaheads n := by
  obtain ⟨hn, m, hm, hf⟩ := FollowSets.mem_lookaheads.mp ha
  refine FollowSets.mem_lookaheads.mpr ⟨h.nonterminals hn, m, h.owned hm, ?_⟩
  rcases hf with ⟨t, rfl, lhs, rest, ho, hb⟩ | ⟨rfl, hs⟩
  · exact .inl ⟨t, rfl, lhs, rest, h.occurs ho, h.begins hb⟩
  · exact .inr ⟨rfl, hs⟩

/-- The end of the input follows no more than before. -/
theorem end_follows (h : g.Extends g' inside) (hn : n ∈ g.nonterminals) (hs : inside start)
    (ha : none ∈ (FollowSets.of g' start).lookaheads n) :
    none ∈ (FollowSets.of g start).lookaheads n := by
  obtain ⟨_, m, hm, hf⟩ := FollowSets.mem_lookaheads.mp ha
  rcases hf with ⟨t, ht, _⟩ | ⟨_, rfl⟩
  · cases ht
  · exact FollowSets.mem_lookaheads.mpr ⟨hn, m, h.owned_of_inside hm hs, .inr ⟨rfl, rfl⟩⟩

end Grammar.Extends

/-! ## Outlines -/

/-- Two outlines differ only in what is expected on lookaheads that they do not share. -/
structure Outline.Shares (o o' : Outline T N) (shared : Lookahead T → Prop) : Prop where
  size : o'.size = o.size
  next? : o'.next? = o.next?
  holds {i p d : Nat} : o'.holds i p d ↔ o.holds i p d
  expects {i p d : Nat} {a : Lookahead T} : shared a → (o'.expects i p d a ↔ o.expects i p d a)

namespace Grammar

/-- A lookahead follows an inside nonterminal in the second grammar and not in the first. -/
def Gains (g g' : Grammar T N V) (inside : N → Prop) (start : N) (a : Lookahead T) : Prop :=
  ∃ n, inside n ∧ a ∈ (FollowSets.of g' start).lookaheads n ∧
    a ∉ (FollowSets.of g start).lookaheads n

/-- A method makes the same of a lookahead in both grammars: it does not look at FOLLOW
sets, or no FOLLOW set gains the lookahead. -/
def Keeps (g g' : Grammar T N V) (inside : N → Prop) (start : N) (method : Method)
    (a : Lookahead T) : Prop :=
  method = .slr → ¬ g.Gains g' inside start a

variable {g g' : Grammar T N V} {inside : N → Prop} {start : N} {p : Nat} {a : Lookahead T}

omit [Ordered T] in
theorem inside_startKernel {Λ : Type} [Ordered Λ] {rule : LookaheadRule g Λ}
    (hs : g.Starts start p) (hi : inside start) :
    (Machine.startKernel rule p).Inside g inside := by
  intro i hm
  rw [Machine.mem_startKernel.mp hm]
  obtain ⟨production, hp, hl⟩ := hs.exists_production
  exact ⟨production, hp, hl ▸ hi⟩

theorem ofStart_eq {Λ : Type} [Ordered Λ] {rule : LookaheadRule g Λ} {rule' : LookaheadRule g' Λ}
    (h : g.Extends g' inside) (hr : rule.Agrees rule' inside) (hs : g.Starts start p)
    (hi : inside start) : Machine.ofStart rule' p = Machine.ofStart rule p := by
  have kernel : Machine.startKernel rule' p = Machine.startKernel rule p := by
    rw [Machine.startKernel, Machine.startKernel, hr.initial]
  rw [Machine.ofStart, Machine.ofStart, kernel]
  exact Machine.build_eq_of_extends (inside_startKernel hs hi) h hr Machine.isEmpty_startKernel

/-- Outlines of one machine differ only in the lookaheads on which items are reduced. -/
theorem shares_outline {Λ : Type} [Ordered Λ] {machine : Machine T N Λ}
    {aheads aheads' : Item Λ → List (Lookahead T)} {shared : Lookahead T → Prop}
    (same : ∀ i, ∀ item ∈ machine.items i, ∀ a, shared a → (a ∈ aheads' item ↔ a ∈ aheads item)) :
    (machine.outline aheads).Shares (machine.outline aheads') shared where
  size := rfl
  next? := rfl
  holds := .rfl
  expects := by
    intro i q d a ha
    rw [Machine.expects_outline, Machine.expects_outline]
    refine exists_congr fun item => and_congr_right fun hm => ?_
    rw [same i item hm a ha]

/-- An extension has the same outline, except for what its FOLLOW sets gain. -/
theorem Extends.shares (h : g.Extends g' inside) (hs : g.Starts start p) (hi : inside start)
    (method : Method) :
    (g.outline method start p).Shares (g'.outline method start p)
      (g.Keeps g' inside start method) := by
  cases method with
  | lr1 =>
      simp only [outline]
      rw [ofStart_eq h (LookaheadRule.agrees_lr1 h) hs hi]
      exact shares_outline fun _ _ _ _ _ => .rfl
  | slr =>
      simp only [outline]
      have rules := LookaheadRule.agrees_lr0 g g' inside
      rw [ofStart_eq h rules hs hi]
      refine shares_outline fun i item hm a hk => ?_
      obtain ⟨production, hp, hn⟩ := Machine.inside_of_mem_items (inside_startKernel hs hi) h rules
        Machine.isEmpty_startKernel hm
      simp only [followers, hp, h.getElem? hp]
      refine ⟨fun ha => ?_, h.follows⟩
      exact Classical.byContradiction fun hg => hk rfl ⟨production.lhs, hn, ha, hg⟩

theorem Extends.keeps_none (h : g.Extends g' inside) (hi : inside start)
    (listed : ∀ n, inside n → n ∈ g.nonterminals) (method : Method) :
    g.Keeps g' inside start method none := by
  intro _ ⟨n, hn, ha, hg⟩
  exact hg (h.end_follows (listed n hn) hi ha)

end Grammar

/-! ## Cells -/

/-- Two policies answer in the same way for the productions below a number. -/
structure Policy.AgreesBelow (policy policy' : Policy T) (bound : Nat) : Prop where
  reduceOn {p : Nat} : p < bound → ∀ a, policy'.reduceOn p a = policy.reduceOn p a
  shiftOnUndeclared : policy'.shiftOnUndeclared = policy.shiftOnUndeclared

section

variable {g g' : Grammar T N V} {inside : N → Prop} {policy policy' : Policy T} {i p : Nat}
  {a : Lookahead T} {c : Candidates}

theorem Grammar.Extends.rulePrecedence? (h : g.Extends g' inside) {q : Nat}
    (hq : ∃ production, g.productions[q]? = some production) :
    g'.rulePrecedence? q = g.rulePrecedence? q := by
  obtain ⟨production, hq⟩ := hq
  rw [Grammar.rulePrecedence?, Grammar.rulePrecedence?, hq, h.getElem? hq]
  simp only [Option.map_some, Grammar.productionPrecedence, Grammar.terminalPrecedence,
    h.precedence]

theorem Grammar.Extends.terminalPrecedence (h : g.Extends g' inside) (t : T) :
    g'.terminalPrecedence t = g.terminalPrecedence t := by
  rw [Grammar.terminalPrecedence, Grammar.terminalPrecedence, h.precedence]

theorem Grammar.Extends.ranked (h : g.Extends g' inside) {t : T} {q : Nat}
    {ofTerminal ofProduction : Precedence}
    (hq : ∃ production, g.productions[q]? = some production)
    (hr : g.Ranked t q ofTerminal ofProduction) : g'.Ranked t q ofTerminal ofProduction :=
  ⟨h.terminalPrecedence t ▸ hr.terminal, h.rulePrecedence? hq ▸ hr.production⟩

theorem Grammar.Extends.unranked (h : g.Extends g' inside) {t : T} {q : Nat}
    {fault : GrammarError T N} (hq : ∃ production, g.productions[q]? = some production)
    (hr : g.Unranked t q fault) : g'.Unranked t q fault := by
  cases hr with
  | terminal ht => exact .terminal (h.terminalPrecedence t ▸ ht)
  | production ht hp => exact .production (h.terminalPrecedence t ▸ ht) (h.rulePrecedence? hq ▸ hp)

/-- Candidates are settled in the same way in an extension. -/
theorem Candidates.Settles.of_extends (h : g.Extends g' inside)
    (hp : policy'.shiftOnUndeclared = policy.shiftOnUndeclared) (hf : c.Fit g a)
    {r : Except (CompileError T N) (Verdict T)} (hs : c.Settles g policy i a r) :
    c.Settles g' policy' i a r := by
  cases hs with
  | accept ha hr => exact .accept ha hr
  | contested ha hr => exact .contested ha hr
  | unexpected ha hn hr => exact .unexpected ha hn hr
  | shift ha hn hr => exact .shift ha hn hr
  | reduce ha hn hr => exact .reduce ha hn hr
  | tighter ha hc hr hl => exact .tighter ha hc (h.ranked (hf.reduces hc.reduce.1) hr) hl
  | looser ha hc hr hl => exact .looser ha hc (h.ranked (hf.reduces hc.reduce.1) hr) hl
  | left ha hc hr hl hs => exact .left ha hc (h.ranked (hf.reduces hc.reduce.1) hr) hl hs
  | right ha hc hr hl hs => exact .right ha hc (h.ranked (hf.reduces hc.reduce.1) hr) hl hs
  | nonAssoc ha hc hr hl hs => exact .nonAssoc ha hc (h.ranked (hf.reduces hc.reduce.1) hr) hl hs
  | defaulted ha hc hu hd =>
      exact .defaulted ha hc (h.unranked (hf.reduces hc.reduce.1) hu) (hp.trans hd)
  | unranked ha hc hu hd =>
      exact .unranked ha hc (h.unranked (hf.reduces hc.reduce.1) hu) (hp.trans hd)

omit [Ordered N] in
/-- Where nothing is shifted or accepted, there is an action. -/
theorem Candidates.Settles.exists_ok_of_no_shift (hn : c.shift? = none) (ha : ¬ c.accept)
    {r : Except (CompileError T N) (Verdict T)} (hs : c.Settles g policy i a r) :
    ∃ action, r = .ok (.action action) := by
  have alone {t : T} {j q : Nat} (hc : c.Competes a t j q) : False := by
    cases hn.symm.trans hc.shift
  cases hs with
  | accept h _ | contested h _ => exact absurd h ha
  | unexpected | shift | reduce => exact ⟨_, rfl⟩
  | tighter _ hc | looser _ hc | left _ hc | right _ hc | nonAssoc _ hc | defaulted _ hc
  | unranked _ hc => exact (alone hc).elim

omit [Ordered N] in
/-- A verdict records a conflict of its own cell. -/
theorem Candidates.Settles.of_defaulted {conflict : Conflict T}
    (hs : c.Settles g policy i a (.ok (.defaulted conflict))) :
    conflict.state = i ∧ a = some conflict.ahead := by
  cases hs with
  | defaulted _ hc => exact ⟨rfl, hc.ahead⟩

end

omit [Ordered T] in
theorem Verdict.conflict?_eq_some_iff {verdict : Verdict T} {conflict : Conflict T} :
    verdict.conflict? = some conflict ↔ verdict = .defaulted conflict := by
  cases verdict <;> simp [conflict?]

/-! ## The scan -/

namespace Outline

variable {g g' : Grammar T N V} {inside : N → Prop} {policy policy' : Policy T} {start i : Nat}
  {a : Lookahead T} {o o' : Outline T N} {shared : Lookahead T → Prop}

/-- An extension has the same candidates on a lookahead that is shared. -/
theorem Shares.candidates_eq (hsh : o.Shares o' shared) (h : g.Extends g' inside)
    (ho : o.Lawful g start) (hp : policy.AgreesBelow policy' g.productions.length)
    (ha : shared a) :
    o'.candidates g' policy' start i a = o.candidates g policy start i a := by
  have rhs {q d : Nat} (hq : o.holds i q d) : g'.rhs q = g.rhs q := by
    obtain ⟨production, hg, _⟩ := ho.exists_production hq
    exact h.rhs_eq hg
  -- Whatever is completed is a production of the first grammar.
  have completed (q : Nat) {b : Lookahead T} (hb : shared b) :
      o'.expects i q (g'.rhs q).length b ↔ o.expects i q (g.rhs q).length b := by
    constructor
    · intro he
      have he := (hsh.expects hb).mp he
      rwa [rhs (ho.holds_of_expects he)] at he
    · intro he
      rw [rhs (ho.holds_of_expects he)]
      exact (hsh.expects hb).mpr he
  have reduces : (o'.candidates g' policy' start i a).reduces =
      (o.candidates g policy start i a).reduces := by
    refine Set.ext fun q => and_congr_right fun _ => ?_
    rw [completed q ha]
    refine and_congr_right fun he => ?_
    obtain ⟨production, hg, _⟩ := ho.exists_production (ho.holds_of_expects he)
    rw [hp.reduceOn (List.getElem?_eq_some_iff.mp hg).1]
  have accept : (o'.candidates g' policy' start i a).accept =
      (o.candidates g policy start i a).accept := by
    refine propext (and_congr_right fun hn => ?_)
    subst hn
    exact completed start ha
  have shift : (o'.candidates g' policy' start i a).shift? =
      (o.candidates g policy start i a).shift? := by
    rw [candidates, candidates, hsh.next?]
  generalize o'.candidates g' policy' start i a = c' at reduces accept shift ⊢
  generalize o.candidates g policy start i a = c at reduces accept shift ⊢
  cases c
  cases c'
  cases reduces
  cases accept
  cases shift
  rfl

/-- Cells on shared lookaheads are settled in the same way. -/
theorem Shares.settles_iff (hsh : o.Shares o' shared) (h : g.Extends g' inside)
    (ho : o.Lawful g start) (ho' : o'.Lawful g' start)
    (hp : policy.AgreesBelow policy' g.productions.length) (ha : shared a)
    {r : Except (CompileError T N) (Verdict T)} :
    (o'.candidates g' policy' start i a).Settles g' policy' i a r ↔
      (o.candidates g policy start i a).Settles g policy i a r := by
  have same := hsh.candidates_eq (i := i) h ho hp ha
  have settled {r : Except (CompileError T N) (Verdict T)}
      (hs : (o.candidates g policy start i a).Settles g policy i a r) :
      (o'.candidates g' policy' start i a).Settles g' policy' i a r :=
    same ▸ hs.of_extends h hp.shiftOnUndeclared ho.fit
  refine ⟨fun hs => ?_, settled⟩
  obtain ⟨r', hs'⟩ := ho.fit.exists_settles policy i
  rwa [hs.unique ho'.fit (settled hs')]

/-- On a terminal that the first grammar lacks there is an action. -/
theorem Shares.exists_ok (hsh : o.Shares o' shared) (ho : o.Lawful g start)
    (ha : a ∉ g.lookaheads) {r : Except (CompileError T N) (Verdict T)}
    (hs : (o'.candidates g' policy' start i a).Settles g' policy' i a r) :
    ∃ action, r = .ok (.action action) := by
  have accept : ¬ (o'.candidates g' policy' start i a).accept :=
    fun hn => ha (hn.1 ▸ Grammar.none_mem_lookaheads)
  have shift : (o'.candidates g' policy' start i a).shift? = none := by
    refine Option.eq_none_iff_forall_ne_some.mpr fun j hj => ?_
    obtain ⟨t, rfl, hn⟩ := Option.bind_eq_some_iff.mp hj
    rw [hsh.next?] at hn
    exact ha (Grammar.some_mem_lookaheads.mpr (ho.mem_terminals_of_next hn))
  exact hs.exists_ok_of_no_shift shift accept

omit [Ordered N] in
/-- The scan of the first grammar is the part of the scan on its lookaheads. -/
theorem Shares.filter_scan (hsh : o.Shares o' shared)
    (hg : ∀ b ∈ g.lookaheads, b ∈ g'.lookaheads) :
    (o'.scan g').filter (fun (_, b) => b ∈ g.lookaheads) = o.scan g := by
  have lookaheads : g'.lookaheads.filter (· ∈ g.lookaheads) = g.lookaheads := by
    refine eq_of_mem_iff (fun h => Ordered.Before.asymm h)
      (Grammar.sorted_lookaheads.filter _) Grammar.sorted_lookaheads fun b => ?_
    rw [List.mem_filter, decide_eq_true_eq]
    exact ⟨And.right, fun hb => ⟨hg b hb, hb⟩⟩
  rw [scan, scan, hsh.size, List.filter_flatMap]
  refine List.flatMap_congr fun i _ => ?_
  rw [List.filter_map]
  exact congrArg _ lookaheads

/-- The first cell that cannot be settled is the same. -/
theorem Shares.fails_filter (hsh : o.Shares o' shared) (h : g.Extends g' inside)
    (ho : o.Lawful g start) (ho' : o'.Lawful g' start)
    (hp : policy.AgreesBelow policy' g.productions.length) (all : ∀ b ∈ g.lookaheads, shared b)
    {e : CompileError T N} {cells : List (Nat × Lookahead T)}
    (hf : o'.Fails g' policy' start e cells) :
    o.Fails g policy start e (cells.filter fun (_, b) => b ∈ g.lookaheads) := by
  induction hf with
  | @here i a cells hs =>
      by_cases ha : a ∈ g.lookaheads
      · rw [List.filter_cons_of_pos (by simpa using ha)]
        exact .here ((hsh.settles_iff h ho ho' hp (all a ha)).mp hs)
      · obtain ⟨_, he⟩ := hsh.exists_ok ho ha hs
        cases he
  | @later i a v cells hs _ ih =>
      by_cases ha : a ∈ g.lookaheads
      · rw [List.filter_cons_of_pos (by simpa using ha)]
        exact .later ((hsh.settles_iff h ho ho' hp (all a ha)).mp hs) ih
      · rw [List.filter_cons_of_neg (by simpa using ha)]
        exact ih

variable {verdict verdict' : Nat → Lookahead T → Verdict T} {table table' : ParseTable T N}

/-- The tables have the same actions on shared lookaheads. -/
theorem Shares.action_eq (hsh : o.Shares o' shared) (h : g.Extends g' inside)
    (ho : o.Lawful g start) (ho' : o'.Lawful g' start)
    (hp : policy.AgreesBelow policy' g.productions.length)
    (hg : ∀ b ∈ g.lookaheads, b ∈ g'.lookaheads)
    (hr : o.Resolved g policy start verdict table)
    (hr' : o'.Resolved g' policy' start verdict' table') (hl : a ∈ g.lookaheads) (ha : shared a) :
    table'.action? i a = table.action? i a := by
  by_cases hi : i < o.size
  · have hm : (i, a) ∈ o.scan g := mem_scan.mpr ⟨hi, hl⟩
    have hm' : (i, a) ∈ o'.scan g' := mem_scan.mpr ⟨hsh.size ▸ hi, hg a hl⟩
    rw [hr.action hm, hr'.action_of_settles ho' hm'
      ((hsh.settles_iff h ho ho' hp ha).mpr (hr.settles hm))]
  · rw [hr.silent fun hm => hi (mem_scan.mp hm).1,
      hr'.silent fun hm => hi (hsh.size ▸ (mem_scan.mp hm).1)]

/-- The tables have the same conflicts if all lookaheads of the first grammar are shared. -/
theorem Shares.conflicts_eq (hsh : o.Shares o' shared) (h : g.Extends g' inside)
    (ho : o.Lawful g start) (ho' : o'.Lawful g' start)
    (hp : policy.AgreesBelow policy' g.productions.length)
    (hg : ∀ b ∈ g.lookaheads, b ∈ g'.lookaheads)
    (hr : o.Resolved g policy start verdict table)
    (hr' : o'.Resolved g' policy' start verdict' table') (all : ∀ b ∈ g.lookaheads, shared b) :
    table'.conflicts = table.conflicts := by
  rw [hr'.conflicts, hr.conflicts, ← hsh.filter_scan hg, List.filterMap_filter]
  refine List.filterMap_congr fun (i, a) hm' => ?_
  have settled' := hr'.settles hm'
  by_cases ha : a ∈ g.lookaheads
  · have hm : (i, a) ∈ o.scan g := mem_scan.mpr ⟨hsh.size ▸ (mem_scan.mp hm').1, ha⟩
    have settled := (hsh.settles_iff h ho ho' hp (all a ha)).mpr (hr.settles hm)
    have same : verdict' i a = verdict i a := Except.ok.inj (settled'.unique ho'.fit settled)
    simp [ha, same]
  · obtain ⟨action, hv⟩ := hsh.exists_ok ho ha settled'
    have silent : verdict' i a = .action action := Except.ok.inj hv
    simp [ha, silent, Verdict.conflict?]

/-- The conflicts of a resolution are the verdicts that record one. -/
theorem Resolved.mem_conflicts_iff (hr : o.Resolved g policy start verdict table)
    {c : Conflict T} : c ∈ table.conflicts ↔
      (c.state, some c.ahead) ∈ o.scan g ∧ verdict c.state (some c.ahead) = .defaulted c := by
  rw [hr.conflicts, List.mem_filterMap]
  constructor
  · rintro ⟨⟨i, a⟩, hm, hc⟩
    have hv : verdict i a = .defaulted c := Verdict.conflict?_eq_some_iff.mp hc
    obtain ⟨rfl, rfl⟩ := Candidates.Settles.of_defaulted (hv ▸ hr.settles hm)
    exact ⟨hm, hv⟩
  · intro ⟨hm, hv⟩
    exact ⟨_, hm, Verdict.conflict?_eq_some_iff.mpr hv⟩

/-- The tables have the same conflicts on shared terminals. -/
theorem Shares.mem_conflicts_iff (hsh : o.Shares o' shared) (h : g.Extends g' inside)
    (ho : o.Lawful g start) (ho' : o'.Lawful g' start)
    (hp : policy.AgreesBelow policy' g.productions.length)
    (hg : ∀ b ∈ g.lookaheads, b ∈ g'.lookaheads)
    (hr : o.Resolved g policy start verdict table)
    (hr' : o'.Resolved g' policy' start verdict' table') {c : Conflict T}
    (ha : shared (some c.ahead)) : c ∈ table'.conflicts ↔ c ∈ table.conflicts := by
  rw [hr'.mem_conflicts_iff, hr.mem_conflicts_iff]
  have same (hm : (c.state, some c.ahead) ∈ o.scan g)
      (hm' : (c.state, some c.ahead) ∈ o'.scan g') :
      verdict' c.state (some c.ahead) = verdict c.state (some c.ahead) :=
    Except.ok.inj <| (hr'.settles hm').unique ho'.fit <|
      (hsh.settles_iff h ho ho' hp ha).mpr (hr.settles hm)
  constructor
  · intro ⟨hm', hv'⟩
    by_cases hl : some c.ahead ∈ g.lookaheads
    · have hm := mem_scan.mpr ⟨hsh.size ▸ (mem_scan.mp hm').1, hl⟩
      exact ⟨hm, (same hm hm').symm.trans hv'⟩
    · obtain ⟨action, hv⟩ := hsh.exists_ok ho hl (hr'.settles hm')
      cases hv'.symm.trans (Except.ok.inj hv)
  · intro ⟨hm, hv⟩
    obtain ⟨hi, hl⟩ := mem_scan.mp hm
    have hm' := mem_scan.mpr ⟨hsh.size ▸ hi, hg _ hl⟩
    exact ⟨hm', (same hm hm').trans hv⟩

/-- What the second grammar settles, the first settles in the same way. -/
theorem Shares.not_fails (hsh : o.Shares o' shared) (h : g.Extends g' inside)
    (ho : o.Lawful g start) (ho' : o'.Lawful g' start)
    (hp : policy.AgreesBelow policy' g.productions.length)
    (hg : ∀ b ∈ g.lookaheads, b ∈ g'.lookaheads)
    (hr' : o'.Resolved g' policy' start verdict' table') (all : ∀ b ∈ g.lookaheads, shared b)
    {e : CompileError T N} : ¬ o.Fails g policy start e (o.scan g) := by
  have settled : ∀ cell ∈ o.scan g, (o.candidates g policy start cell.1 cell.2).Settles g policy
      cell.1 cell.2 (.ok (verdict' cell.1 cell.2)) := by
    intro (i, a) hm
    obtain ⟨hi, ha⟩ := mem_scan.mp hm
    have hm' : (i, a) ∈ o'.scan g' := mem_scan.mpr ⟨hsh.size ▸ hi, hg a ha⟩
    exact (hsh.settles_iff h ho ho' hp (all a ha)).mp (hr'.settles hm')
  exact Outline.not_fails ho settled

end Outline

/-! ## Tables -/

namespace Grammar

variable {g g' : Grammar T N V} {inside : N → Prop} {policy policy' : Policy T} {start : N}
  {p : Nat} {method : Method} {table table' : ParseTable T N} {e : CompileError T N}

theorem Extends.mem_lookaheads (h : g.Extends g' inside) {a : Lookahead T}
    (ha : a ∈ g.lookaheads) : a ∈ g'.lookaheads := by
  cases a with
  | none => exact none_mem_lookaheads
  | some t =>
      obtain ⟨production, hp, ht⟩ := mem_terminals.mp (some_mem_lookaheads.mp ha)
      exact some_mem_lookaheads.mpr (mem_terminals.mpr ⟨production, h.mem hp, ht⟩)

/-- Where two tables agree from the point of view of a grammar. -/
structure SameOn (g : Grammar T N V) (shared : Lookahead T → Prop)
    (table table' : ParseTable T N) : Prop where
  size : table'.rows.length = table.rows.length
  start_eq : table'.start = table.start
  startProduction : table'.startProduction = table.startProduction
  goto (i : Nat) (n : N) : table'.goto? i n = table.goto? i n
  action {a : Lookahead T} : a ∈ g.lookaheads → shared a →
    ∀ i, table'.action? i a = table.action? i a
  conflict {c : Conflict T} : shared (some c.ahead) → (c ∈ table'.conflicts ↔ c ∈ table.conflicts)

/-- If both grammars have a table, the tables agree on everything that is shared. -/
theorem Extends.sameOn (h : g.Extends g' inside) (hs : inside start)
    (hv : g.validate start = .ok p) (hv' : g'.validate start = .ok p)
    (hp : policy.AgreesBelow policy' g.productions.length)
    (ht : (g.compile method start policy).table = .ok table)
    (ht' : (g'.compile method start policy').table = .ok table') :
    g.SameOn (g.Keeps g' inside start method) table table' := by
  have ho := lawful_outline (starts_of_validate hv) method
  have ho' := lawful_outline (starts_of_validate hv') method
  have shares := h.shares (starts_of_validate hv) hs method
  obtain ⟨verdict, hr⟩ := ((compile_exact hv method policy).2 table).mp ht
  obtain ⟨verdict', hr'⟩ := ((compile_exact hv' method policy').2 table').mp ht'
  have lookaheads : ∀ b ∈ g.lookaheads, b ∈ g'.lookaheads := fun _ hb => h.mem_lookaheads hb
  exact {
    size := by rw [hr'.size, hr.size, shares.size]
    start_eq := by rw [hr'.start_eq, hr.start_eq]
    startProduction := by rw [hr'.startProduction, hr.startProduction]
    goto := fun i n => by rw [hr'.goto, hr.goto, shares.next?]
    action := fun hl ha _ => shares.action_eq h ho ho' hp lookaheads hr hr' hl ha
    conflict := fun ha => shares.mem_conflicts_iff h ho ho' hp lookaheads hr hr' ha }

/-- If no lookahead is gained, the grammars have the same error, or tables that agree. -/
theorem Extends.same_error_or_table (h : g.Extends g' inside) (hs : inside start)
    (hv : g.validate start = .ok p) (hv' : g'.validate start = .ok p)
    (hp : policy.AgreesBelow policy' g.productions.length)
    (all : ∀ a ∈ g.lookaheads, g.Keeps g' inside start method a) :
    (∃ e, (g.compile method start policy).table = .error e ∧
      (g'.compile method start policy').table = .error e) ∨
    ∃ table table', (g.compile method start policy).table = .ok table ∧
      (g'.compile method start policy').table = .ok table' ∧
      table'.conflicts = table.conflicts := by
  have ho := lawful_outline (starts_of_validate hv) method
  have ho' := lawful_outline (starts_of_validate hv') method
  have shares := h.shares (starts_of_validate hv) hs method
  have lookaheads : ∀ b ∈ g.lookaheads, b ∈ g'.lookaheads := fun _ hb => h.mem_lookaheads hb
  rcases resolved_or_fails hv' method policy' with ⟨table', verdict', ht', hr'⟩ | ⟨e, he', hf'⟩
  · rcases resolved_or_fails hv method policy with ⟨table, verdict, ht, hr⟩ | ⟨e, _, hf⟩
    · exact .inr ⟨table, table', ht, ht', shares.conflicts_eq h ho ho' hp lookaheads hr hr' all⟩
    · exact absurd hf (shares.not_fails h ho ho' hp lookaheads hr' all)
  · have hf := shares.fails_filter h ho ho' hp all hf'
    rw [shares.filter_scan lookaheads] at hf
    exact .inl ⟨e, ((compile_exact hv method policy).1 e).mpr hf, he'⟩

/-! ## Validation -/

omit [Ordered T] in
/-- What the start symbol reaches is inside. -/
theorem Extends.inside_of_generated (h : g.Extends g' inside) (hs : inside start) {n : N}
    (hn : Generated g.successors [start] n) : inside n := by
  refine hn.of_closed (fun m hm => List.mem_singleton.mp hm ▸ hs) fun m hm k hk => ?_
  obtain ⟨production, hp, rfl, hr⟩ := mem_successors.mp hk
  exact h.closed hp hm k hr

omit [Ordered T] in
/-- The start symbol reaches the same in both grammars. -/
theorem Extends.generated_iff (h : g.Extends g' inside) (hs : inside start) {n : N} :
    Generated g'.successors [start] n ↔ Generated g.successors [start] n := by
  constructor
  · intro hn
    refine hn.of_closed (fun m hm => .seed hm) fun m hm k hk => ?_
    obtain ⟨production, hp, rfl, hr⟩ := mem_successors.mp hk
    have hp := h.mem_of_inside hp (h.inside_of_generated hs hm)
    exact hm.step (mem_successors.mpr ⟨production, hp, rfl, hr⟩)
  · intro hn
    refine hn.of_closed (fun m hm => .seed hm) fun m hm k hk => ?_
    obtain ⟨production, hp, hl, hr⟩ := mem_successors.mp hk
    exact hm.step (mem_successors.mpr ⟨production, h.mem hp, hl, hr⟩)

omit [Ordered T] in
theorem mem_nonterminals_of_generated (hs : start ∈ g.nonterminals) {n : N}
    (hn : Generated g.successors [start] n) : n ∈ g.nonterminals := by
  refine hn.of_closed (P := (· ∈ g.nonterminals)) (fun m hm => List.mem_singleton.mp hm ▸ hs) ?_
  intro m _ k hk
  obtain ⟨production, hp, _, hr⟩ := mem_successors.mp hk
  exact mem_nonterminals_of_mem_rhs hp hr

omit [Ordered T] in
/-- What the start symbol reaches has productions if no fault is found. -/
theorem emptyReachable?_eq_none_iff (hs : start ∈ g.nonterminals) :
    g.emptyReachable? start = none ↔
      ∀ n, Generated g.successors [start] n → g.alternatives n ≠ [] := by
  simp only [emptyReachable?, List.find?_eq_none, Bool.and_eq_true, List.isEmpty_iff,
    decide_eq_true_eq, mem_reachable hs]
  constructor
  · intro h n hn he
    exact h n (mem_nonterminals_of_generated hs hn) ⟨he, hn⟩
  · rintro h n - ⟨he, hn⟩
    exact h n hn he

/-- A grammar is fit for a table if nothing can be reported. -/
theorem validate_eq_ok_iff : g.validate start = .ok p ↔
    g.Starts start p ∧ (∀ n, Generated g.successors [start] n → g.alternatives n ≠ []) ∧
      g.precedence.duplicate? = none := by
  constructor
  · intro hv
    have hs := starts_of_validate hv
    rw [validate, if_pos hs.listed, hs.alternatives] at hv
    refine ⟨hs, ?_⟩
    cases he : g.emptyReachable? start with
    | some n => simp [he] at hv
    | none =>
        refine ⟨(emptyReachable?_eq_none_iff hs.listed).mp he, ?_⟩
        cases hd : g.precedence.duplicate? with
        | some t =>
            simp only [he, hd] at hv
            split at hv <;> cases hv
        | none => rfl
  · rintro ⟨hs, hn, hd⟩
    have unreferenced : g.isReferenced start = false := by
      simpa [isReferenced] using hs.unmentioned
    simp [validate, hs.listed, hs.alternatives, (emptyReachable?_eq_none_iff hs.listed).mpr hn,
      unreferenced, hd]

/-- An extension is as fit for a table if it does not put the start symbol to use. -/
theorem Extends.validate (h : g.Extends g' inside) (hs : inside start)
    (hv : g.validate start = .ok p)
    (unmentioned : ∀ q ∈ g'.productions, Symbol.nonterminal start ∉ q.rhs) :
    g'.validate start = .ok p := by
  obtain ⟨starts, productive, declared⟩ := validate_eq_ok_iff.mp hv
  refine validate_eq_ok_iff.mpr ⟨⟨h.nonterminals starts.listed, ?_, unmentioned⟩, ?_, ?_⟩
  · rw [h.alternatives_eq hs, starts.alternatives]
  · intro n hn
    have hn' := (h.generated_iff hs).mp hn
    rw [h.alternatives_eq (h.inside_of_generated hs hn')]
    exact productive n hn'
  · rw [h.precedence, declared]

/-! ## One production more -/

variable {q : Production T N V}

/-- With the production appended, the terminal follows a nonterminal within reach that it did
not follow before. -/
def Exposes (g : Grammar T N V) (q : Production T N V) (start : N) (t : T) : Prop :=
  g.Gains (g.add q) (· ∈ (g.add q).reachable start) start (some t)

omit [Ordered T] in
/-- What is within reach is not changed by a production that is out of reach. -/
theorem extends_add (hs : start ∈ g.nonterminals) (hq : q.lhs ∉ (g.add q).reachable start) :
    g.Extends (g.add q) (· ∈ (g.add q).reachable start) where
  productions := ⟨[q], rfl, fun _ hp => List.mem_singleton.mp hp ▸ hq⟩
  nonterminals hn := mem_mentionAll.mpr (.inl hn)
  precedence := rfl
  closed := by
    intro production hp hl n hn
    have hs : start ∈ (g.add q).nonterminals := mem_mentionAll.mpr (.inl hs)
    rw [mem_reachable hs] at hl ⊢
    exact hl.step (mem_successors.mpr ⟨production, List.mem_append_left _ hp, rfl, hn⟩)

/-- A production is appended to a grammar that is fit for a table.  The start symbol does not
reach its left-hand side, and it does not mention the start symbol.  The policies agree on
the productions that were there before.

If the method does not look at FOLLOW sets, or the production exposes no terminal to it, both
grammars have the same error, or tables with as many states, the same gotos, the same actions
on everything that can come up in the first grammar, and the same conflicts.  In any case
tables of both agree on all that the production does not expose, on the end of the input
before all. -/
theorem compile_add_unreachable (hv : g.validate start = .ok p)
    (hq : q.lhs ∉ (g.add q).reachable start) (hr : .nonterminal start ∉ q.rhs)
    (hp : policy.AgreesBelow policy' g.productions.length) (method : Method) :
    ((method = .slr → ∀ t ∈ g.terminals, ¬ g.Exposes q start t) →
      (∃ e, (g.compile method start policy).table = .error e ∧
        ((g.add q).compile method start policy').table = .error e) ∨
      ∃ table table', (g.compile method start policy).table = .ok table ∧
        ((g.add q).compile method start policy').table = .ok table' ∧
        g.SameOn (fun _ => True) table table' ∧ table'.conflicts = table.conflicts) ∧
    ∀ table table', (g.compile method start policy).table = .ok table →
      ((g.add q).compile method start policy').table = .ok table' →
      g.SameOn (fun a => ∀ t, a = some t → ¬ g.Exposes q start t) table table' := by
  have starts := starts_of_validate hv
  have listed : start ∈ (g.add q).nonterminals := mem_mentionAll.mpr (.inl starts.listed)
  have h := extends_add starts.listed hq
  have hs : start ∈ (g.add q).reachable start :=
    (mem_reachable listed).mpr (.seed List.mem_cons_self)
  have unmentioned : ∀ production ∈ (g.add q).productions,
      Symbol.nonterminal start ∉ production.rhs := by
    intro production hm
    rcases List.mem_append.mp hm with hm | hm
    · exact starts.unmentioned production hm
    · rwa [List.mem_singleton.mp hm]
  have hv' := h.validate hs hv unmentioned
  have known : ∀ n ∈ (g.add q).reachable start, n ∈ g.nonterminals := fun n hn =>
    mem_nonterminals_of_generated starts.listed
      ((h.generated_iff hs).mp ((mem_reachable listed).mp hn))
  have keeps_none := h.keeps_none hs known method
  constructor
  · intro hidden
    have all : ∀ a ∈ g.lookaheads,
        g.Keeps (g.add q) (· ∈ (g.add q).reachable start) start method a := by
      intro a ha
      cases a with
      | none => exact keeps_none
      | some t => exact fun hm => hidden hm t (some_mem_lookaheads.mp ha)
    rcases h.same_error_or_table hs hv hv' hp all with he | ⟨table, table', ht, ht', hc⟩
    · exact .inl he
    · have same := h.sameOn hs hv hv' hp ht ht'
      exact .inr ⟨table, table', ht, ht',
        { same with
          action := fun ha _ => same.action ha (all _ ha)
          conflict := fun _ => by rw [hc] }, hc⟩
  · intro table table' ht ht'
    have same := h.sameOn hs hv hv' hp ht ht'
    have keeps : ∀ a, (∀ t, a = some t → ¬ g.Exposes q start t) →
        g.Keeps (g.add q) (· ∈ (g.add q).reachable start) start method a := by
      intro a ha
      cases a with
      | none => exact keeps_none
      | some t => exact fun _ => ha t rfl
    exact { same with
      action := fun hl ha => same.action hl (keeps _ ha)
      conflict := fun ha => same.conflict (keeps _ ha) }

/-- A sentence `0` is a nonterminal `1`, which is either `2` before the terminal `0`, or the
terminal `1`, and `2` is the terminal `2`. -/
def crossing : Grammar Nat Nat Nat :=
  .ofClauses [
    .rule 0 [([.nonterminal 1], none, total)],
    .rule 1 [([.nonterminal 2, .terminal 0], none, total), ([.terminal 1], none, total)],
    .rule 2 [([.terminal 2], none, total)]]

/-- A production of a nonterminal `3` that nothing mentions: `2` before a terminal. -/
def stray (t : Nat) : Production Nat Nat Nat := ⟨3, [.nonterminal 2, .terminal t], none, total⟩

theorem exists_table_of_action? {g : Grammar Nat Nat Nat} {i : Nat} {a : Lookahead Nat}
    {action : Action Nat}
    (h : (g.compile method 0 {}).table.toOption.bind (·.action? i a) = some action) :
    ∃ table, (g.compile method 0 {}).table = .ok table ∧ table.action? i a = some action := by
  obtain ⟨table, ht, ha⟩ := Option.bind_eq_some_iff.mp h
  refine ⟨table, ?_, ha⟩
  cases hc : (g.compile method 0 {}).table with
  | error e =>
      rw [hc] at ht
      cases ht
  | ok table' =>
      rw [hc] at ht
      exact congrArg Except.ok (Option.some.inj ht)

/-- Another `2` before the terminal `0` changes nothing. -/
theorem compile_add_harmless : crossing.validate 0 = .ok 0 ∧
    (stray 0).lhs ∉ (crossing.add (stray 0)).reachable 0 ∧ .nonterminal 0 ∉ (stray 0).rhs ∧
    (∀ t ∈ crossing.terminals, ¬ crossing.Exposes (stray 0) 0 t) ∧
    ∃ table table', (crossing.compile .slr 0 {}).table = .ok table ∧
      ((crossing.add (stray 0)).compile .slr 0 {}).table = .ok table' ∧
      crossing.SameOn (fun _ => True) table table' ∧ table'.conflicts = table.conflicts := by
  have hv : crossing.validate 0 = .ok 0 := rfl
  have hq : (stray 0).lhs ∉ (crossing.add (stray 0)).reachable 0 := by decide +kernel
  have hr : .nonterminal 0 ∉ (stray 0).rhs := by decide
  have hidden : ∀ t ∈ crossing.terminals, ¬ crossing.Exposes (stray 0) 0 t := by
    have kept : ∀ t ∈ crossing.terminals.toList,
        ∀ n ∈ ((crossing.add (stray 0)).reachable 0).toList,
          some t ∈ (FollowSets.of (crossing.add (stray 0)) 0).lookaheads n →
            some t ∈ (FollowSets.of crossing 0).lookaheads n := by decide +kernel
    intro t ht ⟨n, hn, ha, hg⟩
    exact hg (kept t (SortedSet.mem_toList.mpr ht) n (SortedSet.mem_toList.mpr hn) ha)
  obtain ⟨table, ht, _⟩ : ∃ table, (crossing.compile .slr 0 {}).table = .ok table ∧
      table.action? 2 (some 0) = some (.reduce 3) := exists_table_of_action? (by decide +kernel)
  have agrees : Policy.AgreesBelow ({} : Policy Nat) {} crossing.productions.length :=
    ⟨fun _ _ => rfl, rfl⟩
  rcases (compile_add_unreachable hv hq hr agrees .slr).1 fun _ => hidden with ⟨e, he, _⟩ | same
  · cases ht.symm.trans he
  · exact ⟨hv, hq, hr, hidden, same⟩

/-- An SLR table may reduce on a terminal that only a production out of reach allows. -/
theorem compile_add_stray : crossing.validate 0 = .ok 0 ∧
    (stray 1).lhs ∉ (crossing.add (stray 1)).reachable 0 ∧ .nonterminal 0 ∉ (stray 1).rhs ∧
    1 ∈ crossing.terminals ∧ ∃ table table' : ParseTable Nat Nat,
      (crossing.compile .slr 0 {}).table = .ok table ∧
      ((crossing.add (stray 1)).compile .slr 0 {}).table = .ok table' ∧
      table.action? 2 (some 1) = some (.unexpected (some 1)) ∧
      table'.action? 2 (some 1) = some (.reduce 3) := by
  obtain ⟨table, ht, ha⟩ : ∃ table, (crossing.compile .slr 0 {}).table = .ok table ∧
      table.action? 2 (some 1) = some (.unexpected (some 1)) :=
    exists_table_of_action? (by decide +kernel)
  obtain ⟨table', ht', ha'⟩ : ∃ table,
      ((crossing.add (stray 1)).compile .slr 0 {}).table = .ok table ∧
        table.action? 2 (some 1) = some (.reduce 3) :=
    exists_table_of_action? (by decide +kernel)
  exact ⟨rfl, by decide +kernel, by decide, by decide +kernel, table, table', ht, ht', ha, ha'⟩

end Grammar

end BottomUp
