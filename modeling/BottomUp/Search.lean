import BottomUp.SortedSet

/-!
# Breadth-first search

The states of an automaton are what a successor function reaches from a first state.
`reach` lists such values in the order of a breadth-first search: the seeds first, then the
successors of each listed value in turn, each value once.

The search goes layer by layer.  The first layer are the seeds, and the next one are the
successors of the latest layer that are *fresh*, which is to say not found before.  A layer
counter bounds the search.  Every layer finds a value, so with at least as many layers as
there are values to reach the counter never runs out, and `reach` lists exactly what the
seeds generate (`mem_reach_iff`).

Where the successors of a value are read off something that is of use later on, `survey`
keeps that with the value.  It visits each value once (`survey_eq`).
-/

namespace BottomUp

variable {α : Type} [Ordered α]

/-- The values of `new` that are not found yet, each once, in the order of `new`. -/
def fresh (found : SortedSet α) : List α → List α
  | [] => []
  | a :: new => if a ∈ found then fresh found new else a :: fresh (found.insert a) new

/-- The latest layer and at most so many more, given what is found so far. -/
def explore (succ : α → List α) : Nat → SortedSet α → List α → List α
  | 0, _, latest => latest
  | layers + 1, found, latest =>
      let next := fresh found (latest.flatMap succ)
      if next.isEmpty then latest
      else latest ++ explore succ layers (found.insertAll next) next

/-- What `succ` reaches from the seeds in at most so many layers after the first, in the
order of a breadth-first search. -/
def reach (succ : α → List α) (layers : Nat) (seeds : List α) : List α :=
  let first := fresh .empty seeds
  explore succ layers (.ofList first) first

/-- The search from the latest layer that keeps what visiting a value gives.  The
successors are read off that. -/
def surveyFrom {β : Type} (visit : α → β) (next : β → List α) :
    Nat → SortedSet α → List α → List (α × β)
  | 0, _, latest => latest.map fun a => (a, visit a)
  | layers + 1, found, latest =>
      let visited := latest.map fun a => (a, visit a)
      let following := fresh found (visited.flatMap fun (_, b) => next b)
      if following.isEmpty then visited
      else visited ++ surveyFrom visit next layers (found.insertAll following) following

/-- What is reached from the seeds, each value with what visiting it gives. -/
def survey {β : Type} (visit : α → β) (next : β → List α) (layers : Nat) (seeds : List α) :
    List (α × β) :=
  let first := fresh .empty seeds
  surveyFrom visit next layers (.ofList first) first

/-- What the seeds generate: the seeds and the successors of what they generate. -/
inductive Generated {α : Type} (succ : α → List α) (seeds : List α) : α → Prop
  /-- A seed is generated. -/
  | seed {a : α} : a ∈ seeds → Generated succ seeds a
  /-- A successor of a generated value is generated. -/
  | step {a b : α} : Generated succ seeds a → b ∈ succ a → Generated succ seeds b

/-- What a generated value generates is generated. -/
theorem Generated.trans {α : Type} {succ : α → List α} {seeds : List α} {a b : α}
    (ha : Generated succ seeds a) (hb : Generated succ [a] b) : Generated succ seeds b := by
  induction hb with
  | seed hm => exact List.mem_singleton.mp hm ▸ ha
  | step _ hs ih => exact .step ih hs

/-! ## Fresh values -/

@[simp] theorem mem_fresh {b : α} : ∀ {new : List α} {found : SortedSet α},
    b ∈ fresh found new ↔ b ∈ new ∧ b ∉ found
  | [], _ => by simp [fresh]
  | a :: new, found => by
      unfold fresh
      by_cases ha : a ∈ found
      · rw [if_pos ha, mem_fresh, List.mem_cons]
        constructor
        · exact fun ⟨h, hn⟩ => ⟨.inr h, hn⟩
        · rintro ⟨h | h, hn⟩
          · exact absurd (h ▸ ha) hn
          · exact ⟨h, hn⟩
      · rw [if_neg ha, List.mem_cons, mem_fresh, List.mem_cons, SortedSet.mem_insert]
        by_cases hb : b = a
        · subst hb
          simp [ha]
        · simp [hb]

theorem nodup_fresh : ∀ (new : List α) (found : SortedSet α), (fresh found new).Nodup
  | [], _ => List.nodup_nil
  | a :: new, found => by
      unfold fresh
      split
      · exact nodup_fresh new found
      · refine List.nodup_cons.mpr ⟨fun h => ?_, nodup_fresh new (found.insert a)⟩
        exact (mem_fresh.mp h).2 (SortedSet.mem_insert.mpr (.inl rfl))

/-! ## Counting -/

/-- A list without repetitions is no longer than one that holds all its members. -/
theorem length_le_of_nodup_of_mem : ∀ {l u : List α}, l.Nodup → (∀ a ∈ l, a ∈ u) →
    l.length ≤ u.length
  | [], _, _, _ => Nat.zero_le _
  | a :: l, u, hn, hm => by
      have hn' := List.nodup_cons.mp hn
      have ha : a ∈ u := hm a List.mem_cons_self
      have rest : ∀ b ∈ l, b ∈ u.erase a := fun b hb => by
        have hne : b ≠ a := fun he => hn'.1 (he ▸ hb)
        exact (List.mem_erase_of_ne hne).mpr (hm b (List.mem_cons_of_mem _ hb))
      have ih := length_le_of_nodup_of_mem hn'.2 rest
      have := List.length_erase_of_mem ha
      have := List.length_pos_of_mem ha
      simp only [List.length_cons]
      omega

/-- A set that lacks a value of a list that holds all its members is smaller than the
list. -/
theorem size_lt_of_not_mem {s : SortedSet α} {u : List α} {b : α} (hs : ∀ a ∈ s, a ∈ u)
    (hb : b ∈ u) (hn : b ∉ s) : s.size < u.length := by
  have hn' : b ∉ s.toList := fun h => hn (SortedSet.mem_toList.mp h)
  rw [← SortedSet.length_toList]
  refine length_le_of_nodup_of_mem (List.nodup_cons.mpr ⟨hn', s.nodup_toList⟩) fun a ha => ?_
  cases List.mem_cons.mp ha with
  | inl he => exact he ▸ hb
  | inr hm => exact hs a (SortedSet.mem_toList.mp hm)

/-- A set that gets a new value becomes larger. -/
theorem size_lt_size_insertAll {s : SortedSet α} {as : List α} {b : α} (hb : b ∈ as)
    (hn : b ∉ s) : s.size < (s.insertAll as).size := by
  rw [← SortedSet.length_toList (s.insertAll _)]
  refine size_lt_of_not_mem (fun a ha => ?_) ?_ hn
  · exact SortedSet.mem_toList.mpr (SortedSet.mem_insertAll.mpr (.inr ha))
  · exact SortedSet.mem_toList.mpr (SortedSet.mem_insertAll.mpr (.inl hb))

/-- A set that gets fresh values becomes larger by each of them. -/
theorem size_insertAll_fresh : ∀ {new : List α} {found : SortedSet α},
    (found.insertAll (fresh found new)).size = found.size + (fresh found new).length
  | [], _ => rfl
  | a :: new, found => by
      unfold fresh
      by_cases ha : a ∈ found
      · rw [if_pos ha, size_insertAll_fresh]
      · have more : ((found.insert a).insertAll (fresh (found.insert a) new)).size =
            (found.insert a).size + (fresh (found.insert a) new).length := size_insertAll_fresh
        rw [SortedSet.size_insert_of_not_mem ha] at more
        rw [if_neg ha, SortedSet.insertAll, List.foldl_cons, List.length_cons]
        exact more.trans (by omega)

/-! ## The search lists what the seeds generate -/

variable {succ : α → List α}

/-- The latest layer is listed. -/
theorem mem_explore_of_mem {b : α} {layers : Nat} {found : SortedSet α} {latest : List α}
    (h : b ∈ latest) : b ∈ explore succ layers found latest := by
  cases layers with
  | zero => exact h
  | succ layers =>
      rw [explore]
      split
      · exact h
      · exact List.mem_append_left _ h

/-- Everything listed is generated. -/
theorem generated_of_mem_explore {seeds : List α} {b : α} :
    ∀ {layers : Nat} {found : SortedSet α} {latest : List α},
      (∀ a ∈ latest, Generated succ seeds a) → b ∈ explore succ layers found latest →
        Generated succ seeds b
  | 0, _, _, hg, h => hg b h
  | layers + 1, found, latest, hg, h => by
      rw [explore] at h
      split at h
      · exact hg b h
      · cases List.mem_append.mp h with
        | inl h => exact hg b h
        | inr h =>
            refine generated_of_mem_explore (fun c hc => ?_) h
            obtain ⟨a, ha, hs⟩ := List.mem_flatMap.mp (mem_fresh.mp hc).1
            exact .step (hg a ha) hs

/-- With layers for all values of a universe that holds what is found and that `succ` does
not leave, the successors of what is listed are listed or were found before. -/
theorem succ_mem_explore {u : List α} (closed : ∀ a ∈ u, ∀ b ∈ succ a, b ∈ u) :
    ∀ {layers : Nat} {found : SortedSet α} {latest : List α},
      (∀ a ∈ found, a ∈ u) → (∀ a ∈ latest, a ∈ found) → u.length ≤ layers + found.size →
      ∀ a ∈ explore succ layers found latest, ∀ b ∈ succ a,
        b ∈ found ∨ b ∈ explore succ layers found latest
  | 0, found, latest, hu, hl, hlen, a, ha, b, hb => by
      refine .inl (Decidable.byContradiction fun hn => ?_)
      have := size_lt_of_not_mem hu (closed a (hu a (hl a ha)) b hb) hn
      omega
  | layers + 1, found, latest, hu, hl, hlen, a, ha, b, hb => by
      rw [explore] at ha ⊢
      have next {a b : α} (ha : a ∈ latest) (hb : b ∈ succ a) (hn : b ∉ found) :
          b ∈ fresh found (latest.flatMap succ) :=
        mem_fresh.mpr ⟨List.mem_flatMap.mpr ⟨a, ha, hb⟩, hn⟩
      split at ha
      · rename_i hempty
        refine .inl (Decidable.byContradiction fun hn => ?_)
        have := next ha hb hn
        rw [List.isEmpty_iff.mp hempty] at this
        exact List.not_mem_nil this
      · rename_i hempty
        rw [if_neg hempty]
        by_cases hf : b ∈ found
        · exact .inl hf
        refine .inr (List.mem_append_right _ ?_)
        cases List.mem_append.mp ha with
        | inl h => exact mem_explore_of_mem (next h hb hf)
        | inr h =>
            have larger : found.size < (found.insertAll (fresh found (latest.flatMap succ))).size := by
              obtain ⟨c, hc⟩ := List.exists_mem_of_ne_nil _ fun h => hempty (List.isEmpty_iff.mpr h)
              exact size_lt_size_insertAll hc (mem_fresh.mp hc).2
            refine (succ_mem_explore closed ?_ ?_ (by omega) a h b hb).elim (fun hm => ?_) id
            · intro c hc
              cases SortedSet.mem_insertAll.mp hc with
              | inl h =>
                  obtain ⟨d, hd, hs⟩ := List.mem_flatMap.mp (mem_fresh.mp h).1
                  exact closed d (hu d (hl d hd)) c hs
              | inr h => exact hu c h
            · exact fun c hc => SortedSet.mem_insertAll.mpr (.inl hc)
            · exact mem_explore_of_mem ((SortedSet.mem_insertAll.mp hm).resolve_right hf)

/-- What is listed after the latest layer was not found before. -/
theorem mem_or_not_mem_of_mem_explore {b : α} :
    ∀ {layers : Nat} {found : SortedSet α} {latest : List α},
      b ∈ explore succ layers found latest → b ∈ latest ∨ b ∉ found
  | 0, _, _, h => .inl h
  | layers + 1, found, latest, h => by
      rw [explore] at h
      split at h
      · exact .inl h
      · refine (List.mem_append.mp h).imp id fun h => ?_
        cases mem_or_not_mem_of_mem_explore h with
        | inl h => exact (mem_fresh.mp h).2
        | inr h => exact fun hf => h (SortedSet.mem_insertAll.mpr (.inr hf))

theorem nodup_explore : ∀ {layers : Nat} {found : SortedSet α} {latest : List α},
    latest.Nodup → (∀ a ∈ latest, a ∈ found) → (explore succ layers found latest).Nodup
  | 0, _, _, hn, _ => hn
  | layers + 1, found, latest, hn, hl => by
      rw [explore]
      split
      · exact hn
      · refine List.nodup_append.mpr ⟨hn, nodup_explore (nodup_fresh _ _) ?_, ?_⟩
        · exact fun c hc => SortedSet.mem_insertAll.mpr (.inl hc)
        · rintro a ha b hb rfl
          cases mem_or_not_mem_of_mem_explore hb with
          | inl h => exact (mem_fresh.mp h).2 (hl a ha)
          | inr h => exact h (SortedSet.mem_insertAll.mpr (.inr (hl a ha)))

/-- The search lists nothing twice. -/
theorem nodup_reach (layers : Nat) (seeds : List α) : (reach succ layers seeds).Nodup :=
  nodup_explore (nodup_fresh seeds _) fun _ h => SortedSet.mem_ofList.mpr h

theorem mem_reach_of_mem {a : α} {seeds : List α} (layers : Nat) (h : a ∈ seeds) :
    a ∈ reach succ layers seeds :=
  mem_explore_of_mem (mem_fresh.mpr ⟨h, SortedSet.not_mem_empty a⟩)

theorem generated_of_mem_reach {a : α} {seeds : List α} {layers : Nat}
    (h : a ∈ reach succ layers seeds) : Generated succ seeds a :=
  generated_of_mem_explore (fun _ hb => .seed (mem_fresh.mp hb).1) h

/-- The search lists exactly what the seeds generate, if it has a layer for each value of
a universe that holds the seeds and that `succ` does not leave. -/
theorem mem_reach_iff {seeds u : List α} {layers : Nat} (hs : ∀ a ∈ seeds, a ∈ u)
    (closed : ∀ a ∈ u, ∀ b ∈ succ a, b ∈ u) (hlen : u.length ≤ layers) {a : α} :
    a ∈ reach succ layers seeds ↔ Generated succ seeds a := by
  refine ⟨generated_of_mem_reach, fun h => ?_⟩
  induction h with
  | seed hm => exact mem_reach_of_mem layers hm
  | @step a b _ hb ih =>
      refine (succ_mem_explore closed ?_ ?_ (by omega) a ih b hb).elim (fun hf => ?_) id
      · exact fun c hc => hs c (mem_fresh.mp (SortedSet.mem_ofList.mp hc)).1
      · exact fun c hc => SortedSet.mem_ofList.mpr hc
      · exact mem_explore_of_mem (SortedSet.mem_ofList.mp hf)

/-! ## A survey visits what the search lists -/

theorem surveyFrom_eq {β : Type} (visit : α → β) (next : β → List α) :
    ∀ (layers : Nat) (found : SortedSet α) (latest : List α),
      surveyFrom visit next layers found latest =
        (explore (fun a => next (visit a)) layers found latest).map fun a => (a, visit a)
  | 0, _, _ => rfl
  | layers + 1, found, latest => by
      rw [surveyFrom, explore, List.flatMap_map]
      split
      · rfl
      · rw [List.map_append, surveyFrom_eq visit next layers]

/-- A survey gives what the search lists, each value with what visiting it gives. -/
theorem survey_eq {β : Type} (visit : α → β) (next : β → List α) (layers : Nat) (seeds : List α) :
    survey visit next layers seeds =
      (reach (fun a => next (visit a)) layers seeds).map fun a => (a, visit a) :=
  surveyFrom_eq visit next layers _ _

end BottomUp
