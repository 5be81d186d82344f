import CycleCollector.TrackedSets.Basic
/-!
# Tracked sets: what each operation does to the views

The views on tracked sets are the four lists `members`, the role `roleOf` and the cyclic count
`gcRefs`. Each operation is described by its effect on them, so that nothing else needs to look at
entries.

## Main statements

* `TrackedSets.mem_members`: the lists and the role agree.
* `TrackedSets.nodup_members`, `TrackedSets.total_eq_sum`: the lists have no repetitions, and
  together they hold every tracked object.
* `members_insert?`, `members_erase`, `members_moved`, `members_merged`, …: the effect on the lists.
* `gcRefs_insert?`, `gcRefs_erase`, `gcRefs_moved`, `gcRefs_merged`, …: the effect on the counts.
-/

namespace CycleCollector.TrackedSets

variable {s s' : TrackedSets} {o p : ObjectId} {r source target : Role} {e : Entry}

/-! ## Entries -/

/-- Two entries of one object are the same entry. -/
theorem eq_of_object_eq (s : TrackedSets) :
    ∀ ⦃e⦄, e ∈ s.entries → ∀ ⦃e'⦄, e' ∈ s.entries → e.object = e'.object → e = e' := by
  have distinct := List.pairwise_map.1 s.nodup
  refine List.Pairwise.forall_of_forall_of_flip (fun _ _ _ => rfl) ?_ ?_
  · exact distinct.imp fun ne same => absurd same ne
  · exact distinct.imp fun ne same => absurd same.symm ne

theorem find?_eq_some : s.find? o = some e ↔ e ∈ s.entries ∧ e.object = o := by
  constructor
  · intro h
    exact ⟨List.mem_of_find?_eq_some h, by simpa using List.find?_some h⟩
  · rintro ⟨mem, rfl⟩
    cases h : s.find? e.object with
    | none => exact absurd (List.mem_map_of_mem mem) (find?_eq_none.1 h)
    | some e' =>
      have same : e'.object = e.object := by simpa using List.find?_some h
      rw [s.eq_of_object_eq (List.mem_of_find?_eq_some h) mem same]

theorem contains_iff : s.contains o = true ↔ ∃ e ∈ s.entries, e.object = o := by
  simp [contains, Option.isSome_iff_exists, find?_eq_some]

theorem roleOf_eq_some : s.roleOf o = some r ↔ ∃ e ∈ s.entries, e.object = o ∧ e.role = r := by
  simp [roleOf, find?_eq_some, and_assoc]

theorem gcRefs_eq_some {n : Nat} :
    s.gcRefs o = some n ↔ ∃ e ∈ s.entries, e.object = o ∧ e.gcRefs = n := by
  simp [gcRefs, find?_eq_some, and_assoc]

theorem isSome_roleOf (s : TrackedSets) (o : ObjectId) : (s.roleOf o).isSome = s.contains o := by
  simp [roleOf, contains]

theorem isSome_gcRefs (s : TrackedSets) (o : ObjectId) : (s.gcRefs o).isSome = s.contains o := by
  simp [gcRefs, contains]

/-! ## Lists -/

theorem mem_members : o ∈ s.members r ↔ s.roleOf o = some r := by
  simp only [members, withRole, List.mem_map, List.mem_filter, decide_eq_true_eq, roleOf_eq_some]
  grind

theorem nodup_members (s : TrackedSets) (r : Role) : (s.members r).Nodup :=
  s.nodup.sublist (List.filter_sublist.map _)

theorem contains_of_mem_members (h : o ∈ s.members r) : s.contains o = true := by
  rw [← isSome_roleOf, mem_members.1 h]
  rfl

/-- The four lists together hold every tracked object once. -/
theorem total_eq_sum (s : TrackedSets) :
    s.total = s.size .new + s.size .inCollection + s.size .isolated + s.size .staged := by
  simp only [total, size, withRole]
  induction s.entries with
  | nil => rfl
  | cons e es ih =>
    cases h : e.role <;> simp [h] <;> omega

/-- In a list without repetitions, what comes from an element on is found by looking for it. -/
theorem dropWhile_ne_eq_drop {os : List ObjectId} {i : Nat} (nodup : os.Nodup)
    (h : os[i]? = some o) : os.dropWhile (· ≠ o) = os.drop i := by
  induction os generalizing i with
  | nil => simp at h
  | cons p os ih =>
    rw [List.nodup_cons] at nodup
    cases i with
    | zero =>
      obtain rfl : p = o := by simpa using h
      simp
    | succ i =>
      have mem : o ∈ os := List.mem_of_getElem? (by simpa using h)
      have ne : p ≠ o := fun same => nodup.1 (same ▸ mem)
      simpa [ne] using ih nodup.2 (by simpa using h)

/-- How many objects are tracked depends on nothing but which. -/
theorem total_congr (same : ∀ o, s'.contains o = s.contains o) : s'.total = s.total := by
  have perm : (s'.entries.map Entry.object).Perm (s.entries.map Entry.object) := by
    refine (List.perm_ext_iff_of_nodup s'.nodup s.nodup).2 fun o => ?_
    have here := same o
    rw [Bool.eq_iff_iff, contains_iff, contains_iff] at here
    simpa using here
  simpa [total] using perm.length_eq

@[simp] theorem members_empty (r : Role) : ({} : TrackedSets).members r = [] := rfl

/-! ## Starting to track -/

theorem insert?_eq_none : s.insert? o r = none ↔ s.contains o = true := by
  unfold insert? contains
  split <;> simp_all

theorem entries_insert? (h : s.insert? o r = some s') :
    s'.entries = s.entries ++ [⟨o, r, 1⟩] := by
  unfold insert? at h
  split at h
  · simp at h
  · obtain rfl := Option.some.inj h
    rfl

theorem contains_of_insert? (h : s.insert? o r = some s') : s.contains o = false := by
  refine Bool.eq_false_iff.2 fun tracked => ?_
  rw [insert?_eq_none.2 tracked] at h
  exact nomatch h

theorem members_insert? (h : s.insert? o r = some s') (r' : Role) :
    s'.members r' = s.members r' ++ if r = r' then [o] else [] := by
  simp only [members, withRole, entries_insert? h, List.filter_append, List.map_append]
  split <;> simp [*]

theorem total_insert? (h : s.insert? o r = some s') : s'.total = s.total + 1 := by
  simp [total, entries_insert? h]

theorem gcRefs_insert? (h : s.insert? o r = some s') (p : ObjectId) :
    s'.gcRefs p = if p = o then some 1 else s.gcRefs p := by
  have untracked := contains_of_insert? h
  simp only [contains, find?, Option.isSome_eq_false_iff, Option.isNone_iff_eq_none] at untracked
  simp only [gcRefs, find?, entries_insert? h, List.find?_append]
  split
  · subst p
    simp [untracked]
  · next ne => simp [Ne.symm ne]

/-! ## Stopping to track -/

theorem members_filter_object (s : TrackedSets) (q : ObjectId → Bool) (r : Role) :
    (s.filter (q ·.object)).members r = (s.members r).filter q := by
  simp [members, withRole, filter, List.filter_filter, List.filter_map, Function.comp_def,
    Bool.and_comm]

@[simp] theorem members_erase (s : TrackedSets) (o : ObjectId) (r : Role) :
    (s.erase o).members r = (s.members r).filter (· ≠ o) :=
  s.members_filter_object (· ≠ o) r

@[simp] theorem gcRefs_erase (s : TrackedSets) (o p : ObjectId) :
    (s.erase o).gcRefs p = if p = o then none else s.gcRefs p := by
  simp only [gcRefs, find?, erase, filter, List.find?_filter]
  split
  · subst p
    simp
  · next ne =>
    congr 2
    funext e
    by_cases h : e.object = p <;> simp [h, ne]

@[simp] theorem members_cleared (s : TrackedSets) (r r' : Role) :
    (s.cleared r).members r' = if r = r' then [] else s.members r' := by
  simp only [members, withRole, cleared, filter, List.filter_filter]
  split
  · subst r'
    simp
  · next ne =>
    congr 2
    funext e
    by_cases h : e.role = r' <;> simp [h, Ne.symm ne]

theorem total_erase (h : s.contains o = true) : (s.erase o).total + 1 = s.total := by
  obtain ⟨e, mem, rfl⟩ := contains_iff.1 h
  have one := s.nodup.count (a := e.object)
  rw [if_pos (List.mem_map_of_mem mem), List.count, List.countP_map] at one
  have both := List.length_eq_countP_add_countP (fun e' => e'.object == e.object) (l := s.entries)
  simp only [Function.comp_def] at one
  simp only [total, erase, filter, ← List.countP_eq_length_filter, both, one]
  simp only [Nat.add_comm, beq_iff_eq, decide_not, ne_eq]

theorem total_cleared (s : TrackedSets) (r : Role) :
    (s.cleared r).total + (s.members r).length = s.total := by
  have both := List.length_eq_countP_add_countP (fun e => decide (e.role = r)) (l := s.entries)
  simp only [total, cleared, filter, members, withRole, List.length_map,
    ← List.countP_eq_length_filter, both]
  simp [Nat.add_comm]

/-! ## Changing the role of an object -/

theorem moved_of_not_contains (h : s.contains o = false) (r : Role) : s.moved o r = s := by
  unfold moved
  split
  · rfl
  · next h' => simp [contains, h'] at h

theorem entries_moved (h : s.find? o = some e) (r : Role) :
    (s.moved o r).entries = (s.erase o).entries ++ [⟨o, r, e.gcRefs⟩] := by
  unfold moved
  split <;> simp_all

/-- An object that changes its role leaves its list and comes last in the new one. -/
theorem members_moved (h : s.contains o = true) (r r' : Role) :
    (s.moved o r).members r' =
      (s.members r').filter (· ≠ o) ++ if r = r' then [o] else [] := by
  obtain ⟨e, he⟩ := Option.isSome_iff_exists.1 h
  rw [← members_erase]
  simp only [members, withRole, entries_moved he, List.filter_append, List.map_append]
  split <;> simp [*]

@[simp] theorem gcRefs_moved (s : TrackedSets) (o p : ObjectId) (r : Role) :
    (s.moved o r).gcRefs p = s.gcRefs p := by
  cases h : s.find? o with
  | none => rw [moved_of_not_contains (by simp [contains, h])]
  | some e =>
    have erased := s.gcRefs_erase o p
    simp only [gcRefs, find?] at erased ⊢
    rw [entries_moved h, List.find?_append, Option.map_or, erased]
    split
    · subst p
      simp only [find?] at h
      simp [h]
    · next ne => simp [Ne.symm ne]

/-! ## Changing cyclic counts -/

@[simp] theorem members_mapGcRefs (s : TrackedSets) (f : Entry → Nat) (r : Role) :
    (s.mapGcRefs f).members r = s.members r := by
  simp [members, withRole, mapGcRefs, List.filter_map, Function.comp_def]

@[simp] theorem members_withGcRefs (s : TrackedSets) (o : ObjectId) (n : Nat) (r : Role) :
    (s.withGcRefs o n).members r = s.members r :=
  s.members_mapGcRefs _ r

theorem find?_mapGcRefs (s : TrackedSets) (f : Entry → Nat) (o : ObjectId) :
    (s.mapGcRefs f).find? o = (s.find? o).map fun e => { e with gcRefs := f e } := by
  simp only [find?, mapGcRefs, List.find?_map, Function.comp_def]

@[simp] theorem gcRefs_withGcRefs (s : TrackedSets) (o p : ObjectId) (n : Nat) :
    (s.withGcRefs o n).gcRefs p =
      if p = o ∧ s.contains o = true then some n else s.gcRefs p := by
  simp only [gcRefs, withGcRefs, find?_mapGcRefs, contains]
  cases h : s.find? p with
  | none =>
    have : ¬(p = o ∧ (s.find? o).isSome = true) := by
      rintro ⟨rfl, tracked⟩
      simp [h] at tracked
    simp [this]
  | some e =>
    obtain ⟨-, rfl⟩ := find?_eq_some.1 h
    by_cases same : e.object = o
    · subst same
      simp [h]
    · simp [same]

/-! ## Changing the role of a whole list -/

/-- The members of the one role follow those of the other, and the first list is empty. -/
theorem members_merged (ne : source ≠ target) (s : TrackedSets) (r : Role) :
    (s.merged source target).members r =
      if r = target then s.members target ++ s.members source
      else if r = source then [] else s.members r := by
  have kept := s.members_cleared source r
  simp only [members, withRole] at kept ⊢
  simp only [merged, List.filter_append, List.map_append, kept, withRole, List.filter_map,
    Function.comp_def, List.map_map]
  by_cases ht : r = target
  · subst r
    simp [ne]
  · by_cases hs : r = source
    · subst r
      simp [ht, Ne.symm ne]
    · simp [ht, hs, Ne.symm ht, Ne.symm hs]

@[simp] theorem gcRefs_merged (s : TrackedSets) (source target : Role) (o : ObjectId) :
    (s.merged source target).gcRefs o = s.gcRefs o := by
  refine Option.ext fun n => ?_
  simp only [gcRefs_eq_some, merged, cleared, filter, withRole, List.mem_append, List.mem_map,
    List.mem_filter, decide_eq_true_eq]
  constructor
  · rintro ⟨e, ⟨mem, -⟩ | ⟨e', ⟨mem, -⟩, rfl⟩, ho, hn⟩
    · exact ⟨e, mem, ho, hn⟩
    · exact ⟨e', mem, ho, hn⟩
  · rintro ⟨e, mem, ho, hn⟩
    by_cases he : e.role = source
    · exact ⟨_, .inr ⟨e, ⟨mem, he⟩, rfl⟩, ho, hn⟩
    · exact ⟨e, .inl ⟨mem, he⟩, ho, hn⟩

/-! ## Roles -/

/-- An object is tracked when it is in one of the lists. -/
theorem contains_iff_exists_mem : s.contains o = true ↔ ∃ r, o ∈ s.members r := by
  simp only [← isSome_roleOf, Option.isSome_iff_exists, mem_members]

/-- The role follows the lists. -/
theorem roleOf_congr (h : ∀ r, o ∈ s'.members r ↔ p ∈ s.members r) :
    s'.roleOf o = s.roleOf p := by
  refine Option.ext fun r => ?_
  simpa only [mem_members] using h r

@[simp] theorem roleOf_withGcRefs (s : TrackedSets) (o p : ObjectId) (n : Nat) :
    (s.withGcRefs o n).roleOf p = s.roleOf p :=
  roleOf_congr fun r => by rw [members_withGcRefs]

@[simp] theorem contains_withGcRefs (s : TrackedSets) (o p : ObjectId) (n : Nat) :
    (s.withGcRefs o n).contains p = s.contains p := by
  rw [← isSome_roleOf, roleOf_withGcRefs, isSome_roleOf]

@[simp] theorem contains_mapGcRefs (s : TrackedSets) (f : Entry → Nat) (o : ObjectId) :
    (s.mapGcRefs f).contains o = s.contains o := by
  simp [contains, find?_mapGcRefs]

@[simp] theorem contains_merged (s : TrackedSets) (source target : Role) (o : ObjectId) :
    (s.merged source target).contains o = s.contains o := by
  rw [← isSome_gcRefs, gcRefs_merged, isSome_gcRefs]

theorem roleOf_moved (h : s.contains o = true) (r : Role) (p : ObjectId) :
    (s.moved o r).roleOf p = if p = o then some r else s.roleOf p := by
  refine Option.ext fun r' => ?_
  rw [← mem_members, members_moved h]
  by_cases same : p = o
  · subst p
    by_cases here : r = r' <;> simp [here]
  · by_cases here : r = r' <;> simp [here, same, mem_members]

@[simp] theorem contains_moved (s : TrackedSets) (o p : ObjectId) (r : Role) :
    (s.moved o r).contains p = s.contains p := by
  rw [← isSome_gcRefs, gcRefs_moved, isSome_gcRefs]

theorem gcRefs_cleared (h : s.roleOf o ≠ some r) : (s.cleared r).gcRefs o = s.gcRefs o := by
  refine Option.ext fun n => ?_
  simp only [gcRefs_eq_some, cleared, filter, List.mem_filter, decide_eq_true_eq]
  constructor
  · rintro ⟨e, ⟨mem, -⟩, ho, hn⟩
    exact ⟨e, mem, ho, hn⟩
  · rintro ⟨e, mem, ho, hn⟩
    refine ⟨e, ⟨mem, fun role => h ?_⟩, ho, hn⟩
    exact roleOf_eq_some.2 ⟨e, mem, ho, role⟩

end CycleCollector.TrackedSets
