import BottomUp.Table.Stored
import Mathlib.Data.List.Perm.Basic

/-!
# Documents up to the order of fields

The fields of a record have names, and whoever passes a document on may put them in
another order.  Keys of a map that are numbers come in another order when they are sorted
as texts.  Documents that differ in nothing else are related by `Document.Reorders`.

What is read from a record does not depend on this order: neither fields by their names,
if no name is there twice (`Document.Rearranged.lookup`, `Document.Rearranged.fields?`),
nor the entries of a map (`Document.Rearranged.entries`).
-/

namespace BottomUp

namespace Document

/-! ## Reordering -/

/-- The fields of a record correspond to those of another in some order. -/
inductive Rearranged (r : Document → Document → Prop) :
    List (String × Document) → List (String × Document) → Prop where
  | nil : Rearranged r [] []
  | cons {name : String} {d d' : Document} {fields fields' : List (String × Document)} :
      r d d' → Rearranged r fields fields' →
        Rearranged r ((name, d) :: fields) ((name, d') :: fields')
  | permute {fields fields' fields'' : List (String × Document)} :
      Rearranged r fields fields' → fields'.Perm fields'' → Rearranged r fields fields''

/-- Two documents differ at most in the order of the fields of their records. -/
inductive Reorders : Document → Document → Prop where
  | null : Reorders .null .null
  | bool {b : Bool} : Reorders (.bool b) (.bool b)
  | number {i : Int} {places : Nat} : Reorders (.number i places) (.number i places)
  | string {s : String} : Reorders (.string s) (.string s)
  | list {items items' : List Document} :
      List.Forall₂ Reorders items items' → Reorders (.list items) (.list items')
  | record {fields fields' : List (String × Document)} :
      Rearranged Reorders fields fields' → Reorders (.record fields) (.record fields')

mutual

/-- Every document is in the order it is in. -/
theorem Reorders.refl : ∀ d : Document, d.Reorders d
  | .null => .null
  | .bool _ => .bool
  | .number _ _ => .number
  | .string _ => .string
  | .list items => .list (Reorders.refl_items items)
  | .record fields => .record (Reorders.refl_fields fields)

theorem Reorders.refl_items : ∀ items : List Document, List.Forall₂ Reorders items items
  | [] => .nil
  | d :: ds => .cons (Reorders.refl d) (Reorders.refl_items ds)

theorem Reorders.refl_fields : ∀ fields : List (String × Document),
    Rearranged Reorders fields fields
  | [] => .nil
  | (_, d) :: fields => .cons (Reorders.refl d) (Reorders.refl_fields fields)

end

/-- Only no value is no value in another order. -/
theorem Reorders.eq_null {d : Document} (h : d.Reorders .null) : d = .null := by
  cases h
  rfl

/-! ## What is read from rearranged fields -/

variable {r : Document → Document → Prop} {fields fields' : List (String × Document)}
  {name : String} {d : Document}

/-- A field whose name is there once is found by its name. -/
theorem lookup_of_mem (hn : (fields.map Prod.fst).Nodup) (hm : (name, d) ∈ fields) :
    fields.lookup name = some d := by
  obtain ⟨before, after, rfl⟩ := List.append_of_mem hm
  rw [List.map_append, List.map_cons, List.nodup_append] at hn
  refine List.lookup_eq_some_iff.mpr ⟨before, after, rfl, fun field hf => ?_⟩
  refine bne_iff_ne.mpr (Ne.symm ?_)
  exact hn.2.2 field.1 (List.mem_map_of_mem hf) name List.mem_cons_self

namespace Rearranged

/-- Rearranging keeps the names. -/
theorem names (h : Rearranged r fields fields') :
    (fields.map Prod.fst).Perm (fields'.map Prod.fst) := by
  induction h with
  | nil => exact .nil
  | cons _ _ ih => exact ih.cons _
  | permute _ hp ih => exact ih.trans (hp.map _)

theorem exists_of_mem (h : Rearranged r fields fields') (hm : (name, d) ∈ fields) :
    ∃ d', (name, d') ∈ fields' ∧ r d d' := by
  induction h with
  | nil => cases hm
  | cons hr _ ih =>
      rcases List.mem_cons.mp hm with he | hm
      · cases he
        exact ⟨_, List.mem_cons_self, hr⟩
      · obtain ⟨d', hm', hr⟩ := ih hm
        exact ⟨d', List.mem_cons_of_mem _ hm', hr⟩
  | permute _ hp ih =>
      obtain ⟨d', hm', hr⟩ := ih hm
      exact ⟨d', hp.mem_iff.mp hm', hr⟩

/-- The order of fields does not matter where one is found by its name. -/
theorem lookup (h : Rearranged r fields fields') (hn : (fields.map Prod.fst).Nodup)
    (hm : (name, d) ∈ fields) : ∃ d', fields'.lookup name = some d' ∧ r d d' := by
  obtain ⟨d', hm', hr⟩ := h.exists_of_mem hm
  exact ⟨d', lookup_of_mem (h.names.nodup hn) hm', hr⟩

/-- The order of fields does not matter where all are found by their names. -/
theorem fields? (h : Rearranged r fields fields') (names : List String)
    (hf : fields.map Prod.fst = names) (hn : names.Nodup) :
    ∃ ds, (Document.record fields').fields? names = some ds ∧
      List.Forall₂ r (fields.map Prod.snd) ds := by
  subst hf
  have found : ∀ field ∈ fields, ∃ d', fields'.lookup field.1 = some d' ∧ r field.2 d' :=
    fun _ hm => h.lookup hn hm
  rw [Document.fields?]
  clear h hn
  induction fields with
  | nil => exact ⟨[], rfl, .nil⟩
  | cons field fields ih =>
      obtain ⟨⟨d', hd, hr⟩, found⟩ := List.forall_mem_cons.mp found
      obtain ⟨ds, hds, hrs⟩ := ih found
      refine ⟨d' :: ds, ?_, .cons hr hrs⟩
      rw [List.map_cons, List.mapM_cons, hd]
      simp only [Option.bind_eq_bind, Option.bind_some, hds]
      rfl

end Rearranged

/-- A record of one field stays one. -/
theorem exists_of_reorders_singleton {name : String} {d d' : Document}
    (h : (record [(name, d)]).Reorders d') :
    ∃ content, d' = record [(name, content)] ∧ d.Reorders content := by
  cases h with
  | record h =>
      rename_i fields
      have one : fields.map Prod.fst = [name] := List.singleton_perm.mp h.names |>.symm
      obtain ⟨⟨name', content⟩, rest, rfl, he, hr⟩ := List.map_eq_cons_iff.mp one
      cases List.map_eq_nil_iff.mp hr
      cases he
      obtain ⟨content', hm, hc⟩ := h.exists_of_mem List.mem_cons_self
      cases List.mem_singleton.mp hm
      exact ⟨content, rfl, hc⟩

/-! ## Depth -/

/-- What is in a list is less deep. -/
theorem depth_lt_of_mem {d : Document} {items : List Document} (h : d ∈ items) :
    d.depth < (list items).depth := by
  rw [depth, Nat.lt_succ_iff]
  induction items with
  | nil => cases h
  | cons d' items ih =>
      rw [depthOfItems]
      rcases List.mem_cons.mp h with rfl | h
      · exact Nat.le_max_left _ _
      · exact Nat.le_trans (ih h) (Nat.le_max_right _ _)

/-- What is in a record is less deep. -/
theorem depth_lt_of_mem_fields {field : String × Document}
    {fields : List (String × Document)} (h : field ∈ fields) :
    field.2.depth < (record fields).depth := by
  rw [depth, Nat.lt_succ_iff]
  induction fields with
  | nil => cases h
  | cons field' fields ih =>
      rw [depthOfFields]
      rcases List.mem_cons.mp h with rfl | h
      · exact Nat.le_max_left _ _
      · exact Nat.le_trans (ih h) (Nat.le_max_right _ _)

theorem depth_lt_of_lookup (h : fields.lookup name = some d) :
    d.depth < (record fields).depth := by
  obtain ⟨before, after, rfl, _⟩ := List.lookup_eq_some_iff.mp h
  have mem : (name, d) ∈ before ++ (name, d) :: after := by simp
  exact depth_lt_of_mem_fields mem

end Document

/-! ## Reading lists and maps -/

variable {α β : Type}

/-- If each of some values is read from its counterpart, they are read from all of them. -/
theorem mapM_eq_some_of_forall₂ {read : α → Option β} {as : List α} {bs : List β}
    (h : List.Forall₂ (fun a b => read a = some b) as bs) : as.mapM read = some bs := by
  induction h with
  | nil => rfl
  | cons ha _ ih =>
      rw [List.mapM_cons, ha]
      simp only [Option.bind_eq_bind, Option.bind_some, ih]
      rfl

/-- A list is read back from its documents, if its members are, which lie less deep. -/
theorem Document.listOf?_of_reorders {read : Document → Option α} {write : α → Document}
    {as : List α} {d : Document} (h : (Document.list (as.map write)).Reorders d)
    (members : ∀ a ∈ as, ∀ d', d'.depth < d.depth → (write a).Reorders d' → read d' = some a) :
    d.listOf? read = some as := by
  cases h with
  | list hi =>
      rename_i items
      have less : ∀ d' ∈ items, d'.depth < (Document.list items).depth :=
        fun _ hm => depth_lt_of_mem hm
      change items.mapM read = some as
      generalize (Document.list items).depth = bound at members less
      refine mapM_eq_some_of_forall₂ ?_
      induction as generalizing items with
      | nil =>
          cases hi
          exact .nil
      | cons a as ih =>
          rw [List.map_cons] at hi
          cases hi with
          | cons hd hi =>
              obtain ⟨ha, has⟩ := List.forall_mem_cons.mp members
              obtain ⟨hl, hls⟩ := List.forall_mem_cons.mp less
              exact .cons (ha _ hl hd) (ih hi has hls)

/-- The entries of a map are read from rearranged fields, in another order. -/
theorem Document.Rearranged.entries {r : Document → Document → Prop} {es : List α}
    {toField : α → String × Document} {fields : List (String × Document)}
    (h : Rearranged r (es.map toField) fields) (read : String × Document → Option α)
    (members : ∀ e ∈ es, ∀ d, r (toField e).2 d → read ((toField e).1, d) = some e) :
    ∃ es', fields.mapM read = some es' ∧ es'.Perm es := by
  have reads : ∃ es', List.Forall₂ (fun field e => read field = some e) fields es' ∧
      es'.Perm es := by
    generalize hf : es.map toField = written at h
    induction h generalizing es with
    | nil =>
        cases List.map_eq_nil_iff.mp hf
        exact ⟨[], .nil, .nil⟩
    | cons hr _ ih =>
        obtain ⟨e, es, rfl, he, hf⟩ := List.map_eq_cons_iff.mp hf
        obtain ⟨ho, hes⟩ := List.forall_mem_cons.mp members
        rw [he] at ho
        obtain ⟨es', h', hp⟩ := ih hes hf
        exact ⟨e :: es', .cons (ho _ hr) h', hp.cons e⟩
    | permute _ hp ih =>
        obtain ⟨es', h', hp'⟩ := ih members hf
        obtain ⟨es'', h'', hp''⟩ := List.perm_comp_forall₂ hp.symm h'
        exact ⟨es'', h'', hp''.trans hp'⟩
  obtain ⟨es', h', hp⟩ := reads
  exact ⟨es', mapM_eq_some_of_forall₂ h', hp⟩

namespace SortedMap

variable {κ : Type} [Ordered κ]

/-- Entries that are listed in another order make up the same map. -/
theorem ofList_of_perm {m : SortedMap κ β} {es : List (κ × β)} (hp : es.Perm m.toList) :
    ofList es = m := by
  have distinct : (es.map Prod.fst).Nodup :=
    (hp.map Prod.fst).nodup_iff.mpr (List.pairwise_map.mpr (m.sorted.imp fun hb => hb.ne))
  refine ext fun k => Option.ext fun b => ?_
  rw [get?_eq_some_iff (m := m), ← hp.mem_iff]
  refine ⟨mem_of_get?_ofList, fun hm => ?_⟩
  clear hp
  induction es with
  | nil => cases hm
  | cons e es ih =>
      rw [List.map_cons, List.nodup_cons] at distinct
      rw [get?_ofList_cons]
      rcases List.mem_cons.mp hm with rfl | hm
      · have later : (ofList es).get? k = none := by
          cases hl : (ofList es).get? k with
          | none => rfl
          | some b' => exact absurd (List.mem_map_of_mem (mem_of_get?_ofList hl)) distinct.1
        rw [later, if_pos rfl, Option.none_or]
      · rw [ih distinct.2 hm, Option.some_or]

end SortedMap

end BottomUp
