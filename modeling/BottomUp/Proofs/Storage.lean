import BottomUp.Parser.Basic
import BottomUp.Proofs.Reordering
import Mathlib.Tactic.IntervalCases

/-!
# Stored tables are the same tables

A table is written as a document and read back (`ParseTable.ofDocument?_of_reorders`).  The
names in a table are of types that are read back from their documents and from their keys
(`Stored.Lawful`); those of strings, characters and 64-bit integers are.  An integer is a
key in decimal, and decimal numbers are read back digit by digit (`Decimal.read?_write`).

The numbers of a table have to be words (`ParseTable.OfWords`).  A reader does not depend
on the order of the fields of a record, so a map whose keys are integers is read back even
if its fields were sorted as texts.
-/

namespace BottomUp

open Document

/-! ## Decimal numbers -/

namespace Decimal

theorem digitValue?_digitChar {n : Nat} (h : n < 10) :
    digitValue? (Nat.digitChar n) = some n := by
  interval_cases n <;> rfl

theorem readFrom_append (cs cs' : List Char) (n : Nat) :
    readFrom n (cs ++ cs') = (readFrom n cs).bind fun m => readFrom m cs' := by
  induction cs generalizing n with
  | nil => rfl
  | cons c cs ih =>
      simp only [List.cons_append, readFrom, Option.bind_assoc]
      exact Option.bind_congr fun d _ => ih _

/-- The digits of a number denote it. -/
theorem readFrom_digits (n : Nat) : readFrom 0 (digits n) = some n := by
  induction n using digits.induct with
  | case1 n h => simp [digits, h, readFrom, digitValue?_digitChar]
  | case2 n h ih =>
      rw [digits, if_neg h, readFrom_append, ih, Option.bind_some, readFrom,
        digitValue?_digitChar (Nat.mod_lt n (by omega)), Option.bind_some, readFrom,
        Nat.div_add_mod]

/-- The digits of a positive number do not begin with a zero. -/
theorem exists_digits_eq_cons {n : Nat} (h : 0 < n) : ∃ c cs, digits n = c :: cs ∧ c ≠ '0' := by
  induction n using digits.induct with
  | case1 n hn =>
      refine ⟨Nat.digitChar n, [], by rw [digits, if_pos hn], ?_⟩
      interval_cases n <;> decide
  | case2 n hn ih =>
      obtain ⟨c, cs, hd, hc⟩ := ih (by omega)
      exact ⟨c, cs ++ [Nat.digitChar (n % 10)], by rw [digits, if_neg hn, hd]; rfl, hc⟩

/-- A natural number is read back from its digits. -/
theorem readNat?_digits (n : Nat) : readNat? (digits n) = some n := by
  rcases Nat.eq_zero_or_pos n with rfl | h
  · rw [digits, if_pos (by omega)]
    rfl
  · have reads := readFrom_digits n
    obtain ⟨c, cs, hd, hc⟩ := exists_digits_eq_cons h
    rw [hd] at reads ⊢
    rw [readNat?]
    · rw [if_neg hc, reads]
    · intro he
      cases he
      exact absurd rfl hc

/-- No digit is a minus sign. -/
theorem ne_minus_of_mem_digits {n : Nat} {c : Char} (h : c ∈ digits n) : c ≠ '-' := by
  induction n using digits.induct with
  | case1 n hn =>
      rw [digits, if_pos hn, List.mem_singleton] at h
      subst h
      interval_cases n <;> decide
  | case2 n hn ih =>
      rw [digits, if_neg hn, List.mem_append, List.mem_singleton] at h
      rcases h with h | rfl
      · exact ih h
      · have : n % 10 < 10 := Nat.mod_lt n (by omega)
        generalize n % 10 = m at this
        interval_cases m <;> decide

/-- An integer is read back from its decimal form. -/
theorem read?_write (i : Int) : read? (write i) = some i := by
  rw [read?, write, String.toList_ofList]
  by_cases h : i < 0
  · rw [if_pos h]
    simp only [readNat?_digits, Option.bind_some]
    rw [if_neg (by omega)]
    congr 1
    omega
  · rw [if_neg h]
    split
    · rename_i cs hd
      exact absurd rfl (ne_minus_of_mem_digits (hd ▸ List.mem_cons_self))
    · rw [readNat?_digits, Option.map_some]
      congr 1
      simp
      omega

end Decimal

/-! ## Names -/

/-- Names are read back from their documents and from their keys, and no name is taken for
a missing one. -/
class Stored.Lawful (α : Type) [Stored α] : Prop where
  ofDocument?_of_reorders (a : α) {d : Document} :
    (Stored.toDocument a).Reorders d → Stored.ofDocument? d = some a
  toDocument_ne_null (a : α) : Stored.toDocument a ≠ .null
  ofKey?_toKey (a : α) : Stored.ofKey? (Stored.toKey a) = some a

namespace Stored

instance : Lawful String where
  ofDocument?_of_reorders a d h := by
    cases h
    rfl
  toDocument_ne_null a := nofun
  ofKey?_toKey a := rfl

theorem char?_toString (c : Char) : char? c.toString = some c := by
  simp [char?, Char.toString]

instance : Lawful Char where
  ofDocument?_of_reorders a d h := by
    cases h
    exact char?_toString a
  toDocument_ne_null a := nofun
  ofKey?_toKey := char?_toString

theorem int64?_toInt (n : Int64) : int64? n.toInt = some n := by
  rw [int64?, if_pos ⟨n.minValue_le_toInt, n.toInt_le⟩, Int64.ofInt_toInt]

instance : Lawful Int64 where
  ofDocument?_of_reorders a d h := by
    cases h
    exact int64?_toInt a
  toDocument_ne_null a := nofun
  ofKey?_toKey a := by
    change (Decimal.read? (Decimal.write a.toInt)).bind int64? = some a
    rw [Decimal.read?_write, Option.bind_some, int64?_toInt]

end Stored

/-! ## Words -/

/-- A word is read back from its document. -/
theorem Document.word?_of_reorders {n : Nat} (h : n < UInt64.size) {d : Document}
    (hd : (Document.nat n).Reorders d) : d.word? = some n := by
  cases hd
  rw [Document.word?, Document.int?, Option.bind_some,
    if_pos ⟨Int.natCast_nonneg n, Int.ofNat_lt.mpr h⟩, Int.toNat_natCast]

variable {T N : Type}

/-- The numbers of an action and of the actions within it are words. -/
inductive Action.OfWords : Action T → Prop where
  | shift {state : Nat} : state < UInt64.size → OfWords (.shift state)
  | reduce {production : Nat} : production < UInt64.size → OfWords (.reduce production)
  | accept : OfWords .accept
  | error {message : String} {conflicts : List (Action T)} {ahead : Lookahead T} :
      (∀ a ∈ conflicts, OfWords a) → OfWords (.error message conflicts ahead)

/-- The numbers of a conflict are words. -/
structure Conflict.OfWords (c : Conflict T) : Prop where
  state : c.state < UInt64.size
  shift : c.shift < UInt64.size
  reduce : c.reduce < UInt64.size

section

variable [Ordered T] [Ordered N]

/-- The numbers of a row are words. -/
structure Row.OfWords (row : Row T N) : Prop where
  atEnd : row.atEnd.OfWords
  actions : ∀ entry ∈ row.actions.toList, entry.2.OfWords
  gotos : ∀ entry ∈ row.gotos.toList, entry.2 < UInt64.size

/-- The numbers of a table are words. -/
structure ParseTable.OfWords (table : ParseTable T N) : Prop where
  rows : ∀ row ∈ table.rows, row.OfWords
  start : table.start < UInt64.size
  startProduction : table.startProduction < UInt64.size
  productions : ∀ info ∈ table.productions, info.len < UInt64.size
  conflicts : ∀ c ∈ table.conflicts, c.OfWords

end

/-! ## Actions -/

section

variable [Stored T]

theorem Document.option?_of_ne_null {d : Document} (h : d ≠ .null) :
    d.option? = (Stored.ofDocument? (α := T) d).map some := by
  cases d with
  | null => exact absurd rfl h
  | _ => rfl

theorem Action.toDocuments_eq_map (as : List (Action T)) :
    toDocuments as = as.map toDocument := by
  induction as with
  | nil => rfl
  | cons a as ih => rw [toDocuments, ih, List.map_cons]

variable [Stored.Lawful T]

/-- A lookahead is read back from its document. -/
theorem Document.option?_of_reorders {ahead : Lookahead T} {d : Document}
    (h : ((ahead.map Stored.toDocument).getD .null).Reorders d) : d.option? = some ahead := by
  cases ahead with
  | none =>
      cases h
      rfl
  | some t =>
      have present : d ≠ .null := by
        rintro rfl
        exact Stored.Lawful.toDocument_ne_null t h.eq_null
      rw [option?_of_ne_null present, Stored.Lawful.ofDocument?_of_reorders t h, Option.map_some]

/-- An action is read back from its document by any reader that looks deep enough. -/
theorem Action.ofDocumentWithin?_of_reorders {a : Action T} (ha : a.OfWords) {depth : Nat}
    {d : Document} (h : a.toDocument.Reorders d) (hd : d.depth ≤ depth) :
    ofDocumentWithin? depth d = some a := by
  induction ha generalizing depth d with
  | shift hs =>
      obtain ⟨content, rfl, hc⟩ := exists_of_reorders_singleton h
      rw [ofDocumentWithin?.eq_def]
      simp [word?_of_reorders hs hc]
  | reduce hp =>
      obtain ⟨content, rfl, hc⟩ := exists_of_reorders_singleton h
      rw [ofDocumentWithin?.eq_def]
      simp [word?_of_reorders hp hc]
  | accept =>
      cases h
      simp [ofDocumentWithin?]
  | @error message conflicts ahead _ ih =>
      rw [toDocument] at h
      obtain ⟨content, rfl, hc⟩ := exists_of_reorders_singleton h
      cases hc with
      | record hf =>
          rename_i fields
          have hn : (["message", "conflicts", "lookahead"] : List String).Nodup := by decide
          obtain ⟨_, message_eq, hm⟩ := hf.lookup hn List.mem_cons_self
          obtain ⟨_, conflicts_eq, hcs⟩ := hf.lookup hn (.tail _ List.mem_cons_self)
          obtain ⟨_, ahead_eq, ha⟩ := hf.lookup hn (.tail _ (.tail _ List.mem_cons_self))
          cases hm
          rw [toDocuments_eq_map] at hcs
          -- The actions within lie deeper than the record they are in.
          have inner := depth_lt_of_lookup conflicts_eq
          have only : ("Error", record fields) ∈ [("Error", record fields)] := List.mem_cons_self
          have outer : (record fields).depth < (record [("Error", record fields)]).depth :=
            depth_lt_of_mem_fields only
          obtain ⟨depth, rfl⟩ : ∃ n, depth = n + 1 := ⟨depth - 1, by omega⟩
          have within : listOf? (ofDocumentWithin? depth) _ = some conflicts :=
            listOf?_of_reorders hcs fun a hm d hd hr => ih a hm hr (by omega)
          rw [ofDocumentWithin?.eq_def]
          simp [record?, string?, message_eq, conflicts_eq, ahead_eq, within,
            option?_of_reorders ha]

/-- An action is read back from its document. -/
theorem Action.ofDocument?_of_reorders {a : Action T} (ha : a.OfWords) {d : Document}
    (h : a.toDocument.Reorders d) : ofDocument? d = some a :=
  ofDocumentWithin?_of_reorders ha h le_rfl

/-- A conflict is read back from its document. -/
theorem Conflict.ofDocument?_of_reorders {c : Conflict T} (hc : c.OfWords) {d : Document}
    (h : c.toDocument.Reorders d) : ofDocument? d = some c := by
  cases h with
  | record hf =>
      match hf.fields? ["state", "lookahead", "shift", "reduce"] rfl (by decide) with
      | ⟨_, hds, .cons state (.cons ahead (.cons shift (.cons reduce .nil)))⟩ =>
          simp [ofDocument?, hds, word?_of_reorders hc.state state,
            word?_of_reorders hc.shift shift, word?_of_reorders hc.reduce reduce,
            Stored.Lawful.ofDocument?_of_reorders c.ahead ahead]

end

/-! ## Tables -/

section

variable [Stored T] [Stored N] [Stored.Lawful T] [Stored.Lawful N]

omit [Stored T] [Stored.Lawful T] in
/-- A left-hand side with its length is read back from its document. -/
theorem ProductionInfo.ofDocument?_of_reorders {info : ProductionInfo N}
    (hi : info.len < UInt64.size) {d : Document} (h : info.toDocument.Reorders d) :
    ofDocument? d = some info := by
  cases h with
  | record hf =>
      match hf.fields? ["lhs", "len"] rfl (by decide) with
      | ⟨_, hds, .cons lhs (.cons len .nil)⟩ =>
          simp [ofDocument?, hds, word?_of_reorders hi len,
            Stored.Lawful.ofDocument?_of_reorders info.lhs lhs]

variable [Ordered T] [Ordered N]

omit [Stored N] [Stored.Lawful N] [Ordered N] in
/-- A map is read back from its document, if its values are. -/
theorem SortedMap.ofDocument?_of_reorders {β : Type} {read : Document → Option β}
    {write : β → Document} {m : SortedMap T β} {d : Document}
    (h : (m.toDocument write).Reorders d)
    (values : ∀ entry ∈ m.toList, ∀ d, (write entry.2).Reorders d → read d = some entry.2) :
    ofDocument? read d = some m := by
  cases h with
  | record hf =>
      rename_i fields
      let readEntry : String × Document → Option (T × β) := fun entry => do
        return (← Stored.ofKey? entry.1, ← read entry.2)
      have member : ∀ entry ∈ m.toList, ∀ d, (write entry.2).Reorders d →
          readEntry (Stored.toKey entry.1, d) = some entry := by
        intro entry he d hd
        simp [readEntry, Stored.Lawful.ofKey?_toKey, values entry he d hd]
      obtain ⟨es, hes, hp⟩ := hf.entries readEntry member
      change (fields.mapM readEntry).bind (fun es => some (ofList es)) = some m
      rw [hes, Option.bind_some, ofList_of_perm hp]

/-- A row is read back from its document. -/
theorem Row.ofDocument?_of_reorders {row : Row T N} (hr : row.OfWords) {d : Document}
    (h : row.toDocument.Reorders d) : ofDocument? d = some row := by
  cases h with
  | record hf =>
      match hf.fields? ["eof", "lookahead", "goto"] rfl (by decide) with
      | ⟨_, hds, .cons atEnd (.cons actions (.cons gotos .nil))⟩ =>
          have actions := SortedMap.ofDocument?_of_reorders actions fun entry he _ hd =>
            Action.ofDocument?_of_reorders (hr.actions entry he) hd
          have gotos := SortedMap.ofDocument?_of_reorders gotos fun entry he _ hd =>
            word?_of_reorders (hr.gotos entry he) hd
          simp [ofDocument?, hds, Action.ofDocument?_of_reorders hr.atEnd atEnd, actions, gotos]

/-- A table is read back from its document. -/
theorem ParseTable.ofDocument?_of_reorders {table : ParseTable T N} (ht : table.OfWords)
    {d : Document} (h : table.toDocument.Reorders d) : ofDocument? d = some table := by
  cases h with
  | record hf =>
      match hf.fields? ["states", "start", "start_production", "productions", "conflicts"] rfl
        (by decide) with
      | ⟨_, hds, .cons rows (.cons start (.cons production (.cons infos
          (.cons conflicts .nil))))⟩ =>
          have rows := listOf?_of_reorders rows fun row hm _ _ hd =>
            Row.ofDocument?_of_reorders (ht.rows row hm) hd
          have infos := listOf?_of_reorders infos fun info hm _ _ hd =>
            ProductionInfo.ofDocument?_of_reorders (ht.productions info hm) hd
          have conflicts := listOf?_of_reorders conflicts fun c hm _ _ hd =>
            Conflict.ofDocument?_of_reorders (ht.conflicts c hm) hd
          simp [ofDocument?, hds, rows, word?_of_reorders ht.start start,
            word?_of_reorders ht.startProduction production, infos, conflicts]

end

/-! ## The same table -/

section

variable [Ordered T] [Ordered N] [Stored T] [Stored N]

/-- Storing keeps a table. -/
structure ParseTable.Kept (table : ParseTable T N) : Prop where
  /-- The table is read back from its document. -/
  restored : ofDocument? table.toDocument = some table
  /-- The fields of records may have been put in another order. -/
  reordered {d : Document} : table.toDocument.Reorders d → ofDocument? d = some table
  /-- What is read back has the same document. -/
  rewritten {table' : ParseTable T N} :
    ofDocument? table.toDocument = some table' → table'.toDocument = table.toDocument
  /-- No other table has the same document. -/
  unique {table' : ParseTable T N} :
    table'.OfWords → table'.toDocument = table.toDocument → table' = table
  /-- What is read back parses in the same way. -/
  parses {table' : ParseTable T N} : ofDocument? table.toDocument = some table' →
    ∀ {K V E : Type} (g : Grammar T N V) (reader : Reader K T V) (steps : Nat)
      (input : List (Except E K)),
      Parser.parse ⟨g, table', reader⟩ steps input = Parser.parse ⟨g, table, reader⟩ steps input

theorem ParseTable.OfWords.kept [Stored.Lawful T] [Stored.Lawful N] {table : ParseTable T N}
    (ht : table.OfWords) : table.Kept := by
  have restored : ofDocument? table.toDocument = some table :=
    ofDocument?_of_reorders ht (.refl _)
  have same : ∀ {table'}, ofDocument? table.toDocument = some table' → table' = table :=
    fun h => (Option.some.inj (restored.symm.trans h)).symm
  refine ⟨restored, ofDocument?_of_reorders ht, fun h => by rw [same h], fun ht' h => ?_,
    fun h _ _ _ _ _ _ _ => by rw [same h]⟩
  rw [← h, ofDocument?_of_reorders ht' (.refl _)] at restored
  exact Option.some.inj restored

end

namespace ParseTable

/-- Every table with strings, characters or 64-bit integers for terminals and strings for
nonterminals is kept by storing it: the whole table is read back from its document, and so
it is written as the same document, told apart from every other table by it, and parses
every input in the same way. -/
theorem kept_of_words :
    (∀ table : ParseTable String String, table.OfWords → table.Kept) ∧
    (∀ table : ParseTable Char String, table.OfWords → table.Kept) ∧
    ∀ table : ParseTable Int64 String, table.OfWords → table.Kept :=
  ⟨fun _ ht => ht.kept, fun _ ht => ht.kept, fun _ ht => ht.kept⟩

/-- A table that no grammar has.  As texts, its terminals come in another order than as
numbers, and one of its errors lies within another. -/
def signed : ParseTable Int64 String where
  rows := [
    { atEnd := .error "two ways on" [.shift 1, .error "" [.reduce 0, .accept] (some (-1))] none
      actions := .ofList [(-10, .shift 1), (-1, .reduce 0), (9, .accept),
        (10, .error "" [.shift 1, .reduce 0] (some 10))]
      gotos := .ofList [("E", 1), ("", 0)] }]
  start := 1
  startProduction := 2
  productions := [⟨"E", 3⟩]
  conflicts := [⟨0, -1, 1, 0⟩]

theorem kept_signed : signed.OfWords ∧ signed.Kept := by
  have shift : (Action.shift 1 : Action Int64).OfWords := .shift (by decide)
  have reduce : (Action.reduce 0 : Action Int64).OfWords := .reduce (by decide)
  have words : signed.OfWords := by
    refine ⟨fun row hr => ?_, by decide, by decide, by decide, fun c hc => ?_⟩
    · cases List.mem_singleton.mp hr
      refine ⟨.error ?_, fun entry he => ?_, fun entry he => ?_⟩
      · have inner : (Action.error "" [.reduce 0, .accept] (some (-1)) : Action Int64).OfWords :=
          .error (by simpa using ⟨reduce, .accept⟩)
        simpa using ⟨shift, inner⟩
      · have listed := SortedMap.mem_of_get?_ofList (SortedMap.get?_eq_some_iff.mpr he)
        simp only [List.mem_cons, List.not_mem_nil, or_false, Prod.mk.injEq] at listed
        rcases listed with ⟨_, h⟩ | ⟨_, h⟩ | ⟨_, h⟩ | ⟨_, h⟩
        · exact h ▸ shift
        · exact h ▸ reduce
        · exact h ▸ .accept
        · exact h ▸ .error (by simpa using ⟨shift, reduce⟩)
      · have listed := SortedMap.mem_of_get?_ofList (SortedMap.get?_eq_some_iff.mpr he)
        simp only [List.mem_cons, List.not_mem_nil, or_false, Prod.mk.injEq] at listed
        rcases listed with ⟨_, h⟩ | ⟨_, h⟩
        · exact h ▸ (by decide)
        · exact h ▸ (by decide)
    · cases List.mem_singleton.mp hc
      exact ⟨by decide, by decide, by decide⟩
  exact ⟨words, kept_of_words.2.2 signed words⟩

end ParseTable

end BottomUp
