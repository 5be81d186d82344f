import CycleCollector.Proofs.Chains
import CycleCollector.TrackedSets.Lemmas
/-!
# The linked lists are lists

Four plain lists without a common object, and a map of counts, say what is to be expected of the
tracked sets. The linked lists and the entries both meet it, request by request: they give the same
answers, and nothing that can be seen of them is different. In particular every walk along a list
ends.

## Main definitions

* `LinkedSets.Represents`, `TrackedSets.Shows`: being those plain lists.

## Main statements

* `RoleLists.Valid.answer`: the plain lists stay apart.
* `LinkedSets.Represents.exists_answer`, `TrackedSets.Shows.exists_answer`: one request.
* `LinkedSets.Represents.views_eq`, `TrackedSets.Shows.views_eq`: what can be seen.
* `LinkedSets.views_of_run`: any number of requests.
-/

namespace CycleCollector

/-! ## Plain lists -/

section Apart

variable {lists : Role → List ObjectId} {o : ObjectId} {r : Role}

theorem Apart.filter (h : Apart lists) (p : ObjectId → Bool) :
    Apart fun r => (lists r).filter p where
  nodup r := (h.nodup r).filter p
  disjoint mem mem' := h.disjoint (List.mem_of_mem_filter mem) (List.mem_of_mem_filter mem')

theorem Apart.append (h : Apart lists) (out : ∀ r, o ∉ lists r) (r : Role) :
    Apart fun r' => lists r' ++ if r = r' then [o] else [] where
  nodup r' := by
    split
    · exact (h.nodup r').append (List.nodup_singleton o) (by simpa using out r')
    · simpa using h.nodup r'
  disjoint {r₁ r₂ p} mem mem' := by
    have := @h.disjoint r₁ r₂ p
    have := out r₁
    have := out r₂
    grind

theorem Apart.merge (h : Apart lists) {source target : Role} (ne : source ≠ target) :
    Apart fun r => if r = target then lists target ++ lists source
      else if r = source then [] else lists r where
  nodup r := by
    split
    · exact (h.nodup target).append (h.nodup source) fun p mem mem' => ne (h.disjoint mem' mem)
    · split
      · exact List.nodup_nil
      · exact h.nodup r
  disjoint {r₁ r₂ p} mem mem' := by
    have := fun r r' => @h.disjoint r r' p
    grind

theorem exists_mem_append {p : ObjectId} :
    (∃ r', p ∈ lists r' ++ if r = r' then [o] else []) ↔ p = o ∨ ∃ r', p ∈ lists r' := by
  constructor
  · rintro ⟨r', mem⟩
    rcases List.mem_append.1 mem with mem | mem
    · exact .inr ⟨r', mem⟩
    · split at mem <;> simp_all
  · rintro (rfl | ⟨r', mem⟩)
    · exact ⟨r, by simp⟩
    · exact ⟨r', List.mem_append_left _ mem⟩

theorem exists_mem_merge {p : ObjectId} {source target : Role} :
    (∃ r, p ∈ if r = target then lists target ++ lists source
      else if r = source then [] else lists r) ↔ ∃ r, p ∈ lists r := by
  constructor
  · rintro ⟨r, mem⟩
    grind
  · rintro ⟨r, mem⟩
    by_cases isSource : r = source
    · exact ⟨target, by simp [← isSource, mem]⟩
    · exact ⟨r, by grind⟩

end Apart

namespace RoleLists

variable {l : RoleLists} {o : ObjectId} {r : Role} {request : SetRequest}

theorem isSome_roleOf : (l.roleOf o).isSome ↔ ∃ r, o ∈ l.members r := by
  rw [roleOf, List.find?_isSome]
  constructor
  · rintro ⟨r, -, mem⟩
    exact ⟨r, by simpa using mem⟩
  · rintro ⟨r, mem⟩
    exact ⟨r, by cases r <;> simp, by simpa using mem⟩

theorem roleOf_eq_some (apart : Apart l.members) : l.roleOf o = some r ↔ o ∈ l.members r := by
  constructor
  · intro found
    simpa using List.find?_some found
  · intro mem
    obtain ⟨r', found⟩ := Option.isSome_iff_exists.1 (isSome_roleOf.2 ⟨r, mem⟩)
    have mem' : o ∈ l.members r' := by simpa using List.find?_some found
    rw [found, apart.disjoint mem' mem]

theorem valid_empty : ({} : RoleLists).Valid where
  apart := ⟨fun _ => List.nodup_nil, fun mem => nomatch mem⟩
  counted o := by simp

theorem notMem_of_roleOf (untracked : (l.roleOf o).isSome = false) (r : Role) :
    o ∉ l.members r := fun mem => by
  rw [isSome_roleOf.2 ⟨r, mem⟩] at untracked
  exact nomatch untracked

theorem Valid.gcRefs_eq_none (h : l.Valid) : l.gcRefs o = none ↔ l.roleOf o = none := by
  rw [← Option.not_isSome_iff_eq_none, h.counted, ← isSome_roleOf, Option.not_isSome_iff_eq_none]

theorem Valid.answer_remove (h : l.Valid) (untracked : l.roleOf o = none) :
    (l.answer (.remove o)).2 = l := by
  have lists (r : Role) : (l.members r).filter (· ≠ o) = l.members r :=
    filter_ne_of_notMem (notMem_of_roleOf (by simp [untracked]) r)
  have counts : (fun p => if p = o then none else l.gcRefs p) = l.gcRefs := by
    funext p
    split
    · next eq => rw [eq, h.gcRefs_eq_none.2 untracked]
    · rfl
  simp only [answer, lists, counts]

/-- The lists stay apart, and their objects are those with a count. -/
theorem Valid.answer (h : l.Valid) (admitted : l.Admits request) : (l.answer request).2.Valid := by
  cases request with
  | insert o r =>
    simp only [RoleLists.answer]
    split
    · exact h
    · next untracked =>
      refine ⟨h.apart.append (notMem_of_roleOf (Bool.eq_false_iff.2 untracked)) r, fun p => ?_⟩
      rw [exists_mem_append, ← h.counted]
      by_cases same : p = o <;> simp [same]
  | remove o =>
    refine ⟨h.apart.filter _, fun p => ?_⟩
    have := h.counted p
    by_cases same : p = o <;> simp_all [RoleLists.answer]
  | moveTo o r =>
    refine ⟨(h.apart.filter _).append (fun r => by simp) r, fun p => ?_⟩
    have tracked := (h.counted o).2 (isSome_roleOf.1 admitted)
    have := h.counted p
    simp only [RoleLists.answer]
    rw [exists_mem_append]
    by_cases same : p = o <;> simp_all
  | merge source target =>
    refine ⟨h.apart.merge admitted, fun p => ?_⟩
    simp only [RoleLists.answer]
    rw [exists_mem_merge, h.counted]
  | setGcRefs o n =>
    refine ⟨h.apart, fun p => ?_⟩
    have tracked := isSome_roleOf.1 admitted
    have := h.counted p
    by_cases same : p = o <;> simp_all [RoleLists.answer]

end RoleLists

/-! ## The linked lists follow the plain ones -/

namespace LinkedSets

variable {t : LinkedSets} {l : RoleLists} {o : ObjectId} {request : SetRequest}

structure Represents (t : LinkedSets) (l : RoleLists) : Prop where
  linked : Linked t l.members
  gcRefs : t.gcRefs = l.gcRefs

theorem represents_empty : Represents {} {} := by
  refine ⟨⟨fun _ => trivial, fun r => ?_⟩, funext fun o => ?_⟩
  · cases r <;> rfl
  · simp [LinkedSets.gcRefs]

theorem contains_eq (t : LinkedSets) (o : ObjectId) : t.contains o = (t.gcRefs o).isSome := by
  simp [contains, gcRefs]

theorem links_eq_none : t.links[o]? = none ↔ t.gcRefs o = none := by
  rw [gcRefs, Option.map_eq_none_iff]

theorem exists_link_of_gcRefs (h : (t.gcRefs o).isSome) : ∃ link, t.links[o]? = some link := by
  rw [gcRefs, Option.isSome_map] at h
  exact Option.isSome_iff_exists.1 h

theorem Represents.contains_iff (h : Represents t l) (valid : l.Valid) :
    t.contains o = (l.roleOf o).isSome := by
  rw [contains_eq, h.gcRefs, Bool.eq_iff_iff, valid.counted, RoleLists.isSome_roleOf]

theorem Represents.links_eq_none (h : Represents t l) (valid : l.Valid)
    (untracked : l.roleOf o = none) : t.links[o]? = none := by
  rw [LinkedSets.links_eq_none, h.gcRefs, valid.gcRefs_eq_none, untracked]

/-- Each request that makes sense gets the answer of the plain lists, and keeps the lists alike. -/
theorem Represents.exists_answer (h : Represents t l) (valid : l.Valid)
    (admitted : l.Admits request) :
    ∃ t', t.answer request = some (.ok ((l.answer request).1, t')) ∧
      Represents t' (l.answer request).2 := by
  cases request with
  | insert o r =>
    simp only [RoleLists.answer]
    by_cases tracked : (l.roleOf o).isSome
    · exact ⟨t, by simp [answer, insert, h.contains_iff valid, tracked], by simpa [tracked] using h⟩
    · rw [if_neg tracked]
      have out := RoleLists.notMem_of_roleOf (Bool.eq_false_iff.2 tracked)
      have linked : Linked (t.setLink o ⟨r, none, none, 1⟩) l.members :=
        h.linked.congr (fun r' p mem => links_setLink_of_ne t _ (ne_of_mem_of_not_mem mem (out r')))
          fun _ => rfl
      obtain ⟨t', pushed, linked', counts⟩ :=
        linked.exists_pushBack valid.apart out (links_setLink_self t o _) r
      refine ⟨t', by simp [answer, insert, h.contains_iff valid, tracked, pushed], linked', ?_⟩
      rw [counts]
      funext p
      rw [gcRefs_setLink, h.gcRefs]
  | remove o =>
    by_cases tracked : (l.roleOf o).isSome
    · obtain ⟨r, mem⟩ := RoleLists.isSome_roleOf.1 tracked
      obtain ⟨t', unlinked, linked', counts⟩ := h.linked.exists_unlink valid.apart mem
      refine ⟨t'.dropLink o, ?_, linked'.congr (fun r p mem => ?_) fun _ => rfl, ?_⟩
      · simp [answer, remove, unlinked, RoleLists.answer,
          (RoleLists.roleOf_eq_some valid.apart).2 mem, bind, Except.bind, pure, Except.pure]
      · exact links_dropLink_of_ne t' (by simpa using (List.mem_filter.1 mem).2)
      · funext p
        rw [gcRefs_dropLink, counts, h.gcRefs]
        rfl
    · have untracked : l.roleOf o = none := by simpa using tracked
      have absent := h.links_eq_none valid untracked
      refine ⟨t, ?_, ?_⟩
      · simp [answer, remove, unlink, absent, RoleLists.answer, untracked, bind, Except.bind, pure,
          Except.pure]
      · rwa [valid.answer_remove untracked]
  | moveTo o r =>
    obtain ⟨r', mem⟩ := RoleLists.isSome_roleOf.1 admitted
    obtain ⟨t₁, unlinked, linked₁, counts₁⟩ := h.linked.exists_unlink valid.apart mem
    obtain ⟨link, hlink⟩ : ∃ link, t₁.links[o]? = some link := by
      refine exists_link_of_gcRefs ?_
      rw [counts₁, h.gcRefs, valid.counted]
      exact ⟨r', mem⟩
    obtain ⟨t₂, pushed, linked₂, counts₂⟩ :=
      linked₁.exists_pushBack (valid.apart.filter _) (fun r => by simp) hlink r
    refine ⟨t₂, ?_, linked₂, (counts₂.trans counts₁).trans h.gcRefs⟩
    simp [answer, moveTo, unlinked, pushed, RoleLists.answer, bind, Except.bind]
  | merge source target =>
    obtain ⟨t', merged, linked', counts⟩ := h.linked.exists_merge valid.apart admitted
    exact ⟨t', by simp [answer, merged, RoleLists.answer], linked', counts.trans h.gcRefs⟩
  | setGcRefs o n =>
    obtain ⟨link, hlink⟩ : ∃ link, t.links[o]? = some link := by
      refine exists_link_of_gcRefs ?_
      rw [h.gcRefs, valid.counted]
      exact RoleLists.isSome_roleOf.1 admitted
    refine ⟨t.setLink o { link with gcRefs := n }, ?_, ⟨fun r => ?_, h.linked.ends⟩, ?_⟩
    · simp [answer, setGcRefs, modifyLink_of_some hlink, RoleLists.answer]
    · refine (h.linked.chain r).imp fun p _ prev next m here => ?_
      by_cases same : p = o
      · subst same
        obtain rfl := Option.some.inj (hlink.symm.trans here)
        exact ⟨n, links_setLink_self ..⟩
      · exact ⟨m, (links_setLink_of_ne t _ same).trans here⟩
    · funext p
      rw [gcRefs_setLink, h.gcRefs]
      rfl

theorem Represents.exists_link (h : Represents t l) (valid : l.Valid) {r : Role}
    (mem : o ∈ l.members r) :
    ∃ link, t.links[o]? = some link ∧ link.role = r ∧
      link.next = ((l.members r).dropWhile (· ≠ o))[1]? := by
  obtain ⟨before, after, split⟩ := List.append_of_mem mem
  have chain := h.linked.chain r
  rw [split, chain_append] at chain
  obtain ⟨-, ⟨n, link⟩, -⟩ := chain
  have place : (l.members r)[before.length]? = some o := by simp [split]
  refine ⟨_, link, rfl, ?_⟩
  rw [TrackedSets.dropWhile_ne_eq_drop (valid.apart.nodup r) place, List.getElem?_drop, split]
  simp [List.head?_eq_getElem?, List.getElem?_append_right]

theorem Represents.roleOf_eq (h : Represents t l) (valid : l.Valid) (o : ObjectId) :
    t.roleOf o = l.roleOf o := by
  cases role : l.roleOf o with
  | none =>
    rw [roleOf, h.links_eq_none valid role]
    rfl
  | some r =>
    obtain ⟨link, hlink, hrole, -⟩ :=
      h.exists_link valid ((RoleLists.roleOf_eq_some valid.apart).1 role)
    rw [roleOf, hlink, Option.map_some, hrole]

theorem Represents.nextOf_eq (h : Represents t l) (valid : l.Valid) (o : ObjectId) :
    t.nextOf o = l.views.nextOf o := by
  simp only [RoleLists.views]
  cases role : l.roleOf o with
  | none =>
    rw [nextOf, h.links_eq_none valid role]
    rfl
  | some r =>
    obtain ⟨link, hlink, -, hnext⟩ :=
      h.exists_link valid ((RoleLists.roleOf_eq_some valid.apart).1 role)
    rw [nextOf, hlink, Option.bind_some, hnext, Option.bind_some]

/-- The table has one link for each object of the lists. -/
theorem Represents.total_eq (h : Represents t l) (valid : l.Valid) :
    t.total = l.views.total := by
  let lists := l.members .new ++ l.members .inCollection ++ l.members .isolated ++ l.members .staged
  have nodupLists : lists.Nodup := by
    have nodup := valid.apart.nodup
    have distinct {r r' : Role} (ne : r ≠ r') : (l.members r).Disjoint (l.members r') :=
      fun p mem mem' => ne (valid.apart.disjoint mem mem')
    simp only [lists, List.nodup_append', List.disjoint_append_left, nodup, true_and]
    refine ⟨⟨distinct ?_, distinct ?_, distinct ?_⟩, ⟨distinct ?_, distinct ?_⟩, distinct ?_⟩ <;>
      simp
  have nodupKeys : t.links.keys.Nodup := by
    have := Std.HashMap.distinct_keys (m := t.links)
    simpa [List.Nodup] using this
  have perm : t.links.keys.Perm lists := by
    refine (List.perm_ext_iff_of_nodup nodupKeys nodupLists).2 fun o => ?_
    have somewhere : o ∈ lists ↔ ∃ r, o ∈ l.members r := by
      simp only [lists, List.mem_append]
      constructor
      · rintro (((mem | mem) | mem) | mem) <;> exact ⟨_, mem⟩
      · rintro ⟨r, mem⟩
        cases r <;> simp [mem]
    rw [somewhere, ← valid.counted, ← h.gcRefs, ← contains_eq, contains,
      Std.HashMap.mem_keys, Std.HashMap.contains_iff_mem]
  have := perm.length_eq
  simpa [lists, total, RoleLists.views, Nat.add_assoc] using this

/-- All that can be seen of the linked lists can be read off the plain ones; walks along them
end. -/
theorem Represents.views_eq (h : Represents t l) (valid : l.Valid) : t.views = l.views := by
  have ends := h.linked.ends
  refine SetViews.ext (funext fun r => ?_) (funext fun r => ?_) (funext (h.nextOf_eq valid))
    (funext fun r => ?_) (funext fun r => ?_) (funext (h.roleOf_eq valid)) h.gcRefs
    (h.total_eq valid)
  · have walk := follow_of_chain (h.linked.chain r)
    simpa [views, RoleLists.views, members, first, ends, Ends.ofList] using walk
  · simp [views, RoleLists.views, first, ends, Ends.ofList]
  · simp [views, RoleLists.views, size, ends, Ends.ofList]
  · simp only [views, RoleLists.views, isEmpty, ends, Ends.ofList]
    cases l.members r <;> rfl

theorem Represents.exists_run {requests : List SetRequest} (h : Represents t l) (valid : l.Valid)
    (admitted : l.AdmitsAll requests) :
    ∃ t', t.run requests = some (.ok ((l.run requests).1, t')) ∧
      Represents t' (l.run requests).2 := by
  induction requests generalizing t l with
  | nil => exact ⟨t, rfl, h⟩
  | cons request requests ih =>
    obtain ⟨now, later⟩ := admitted
    obtain ⟨t₁, answered, h₁⟩ := h.exists_answer valid now
    obtain ⟨t₂, ran, h₂⟩ := ih h₁ (valid.answer now) later
    exact ⟨t₂, by simp [run, answered, ran, RoleLists.run, Except.map], h₂⟩

end LinkedSets

/-! ## The entries follow the plain lists -/

namespace TrackedSets

variable {s : TrackedSets} {l : RoleLists} {request : SetRequest}

structure Shows (s : TrackedSets) (l : RoleLists) : Prop where
  members : ∀ r, s.members r = l.members r
  gcRefs : s.gcRefs = l.gcRefs

theorem shows_empty : Shows {} {} := ⟨fun _ => rfl, rfl⟩

theorem Shows.roleOf_eq (h : Shows s l) (valid : l.Valid) (o : ObjectId) :
    s.roleOf o = l.roleOf o := by
  refine Option.ext fun r => ?_
  rw [← mem_members, h.members, RoleLists.roleOf_eq_some valid.apart]

theorem Shows.contains_eq (h : Shows s l) (valid : l.Valid) (o : ObjectId) :
    s.contains o = (l.roleOf o).isSome := by
  rw [← isSome_roleOf, h.roleOf_eq valid]

/-- Each request that makes sense gets the answer of the plain lists, and keeps the lists alike. -/
theorem Shows.exists_answer (h : Shows s l) (valid : l.Valid) (admitted : l.Admits request) :
    ∃ s', s.answer request = .ok ((l.answer request).1, s') ∧ Shows s' (l.answer request).2 := by
  have tracked := h.contains_eq valid
  cases request with
  | insert o r =>
    simp only [answer, RoleLists.answer]
    cases inserted : s.insert? o r with
    | none =>
      rw [if_pos ((tracked o).symm.trans (insert?_eq_none.1 inserted))]
      exact ⟨s, rfl, h⟩
    | some s' =>
      rw [if_neg (by rw [← tracked, contains_of_insert? inserted]; simp)]
      refine ⟨s', rfl, fun r' => ?_, funext fun p => ?_⟩
      · rw [members_insert? inserted, h.members]
      · rw [gcRefs_insert? inserted, h.gcRefs]
  | remove o =>
    refine ⟨s.erase o, by simp [answer, RoleLists.answer, h.roleOf_eq valid], fun r => ?_,
      funext fun p => ?_⟩
    · rw [members_erase, h.members]
      rfl
    · rw [gcRefs_erase, h.gcRefs]
      rfl
  | moveTo o r =>
    have here : s.contains o = true := (tracked o).trans admitted
    refine ⟨s.moved o r, by simp [answer, moveTo, here, RoleLists.answer], fun r' => ?_,
      funext fun p => ?_⟩
    · rw [members_moved here, h.members]
      rfl
    · rw [gcRefs_moved, h.gcRefs]
      rfl
  | merge source target =>
    have ne : source ≠ target := admitted
    refine ⟨s.merged source target, by simp [answer, merge, ne, RoleLists.answer], fun r => ?_,
      funext fun p => ?_⟩
    · simp only [members_merged ne, h.members, RoleLists.answer]
    · rw [gcRefs_merged, h.gcRefs]
      rfl
  | setGcRefs o n =>
    have here : s.contains o = true := (tracked o).trans admitted
    refine ⟨s.withGcRefs o n, by simp [answer, setGcRefs, here, RoleLists.answer], fun r => ?_,
      funext fun p => ?_⟩
    · rw [members_withGcRefs, h.members]
      rfl
    · simp [gcRefs_withGcRefs, here, h.gcRefs, RoleLists.answer]

/-- All that can be seen of the entries can be read off the plain lists. -/
theorem Shows.views_eq (h : Shows s l) (valid : l.Valid) : s.views = l.views := by
  have sizes (r : Role) : s.size r = (l.members r).length := by rw [← length_members, h.members]
  refine SetViews.ext ?_ ?_ ?_ (funext sizes) ?_ (funext (h.roleOf_eq valid)) h.gcRefs ?_
  · exact funext fun r => congrArg some (h.members r)
  · exact funext fun r => congrArg List.head? (h.members r)
  · funext o
    simp only [views, nextOf, RoleLists.views, h.roleOf_eq valid, h.members]
  · funext r
    simp only [views, isEmpty, RoleLists.views, ← h.members]
    exact List.isEmpty_map.symm
  · simp only [views, total_eq_sum, sizes, RoleLists.views]

theorem Shows.exists_run {requests : List SetRequest} (h : Shows s l) (valid : l.Valid)
    (admitted : l.AdmitsAll requests) :
    ∃ s', s.run requests = .ok ((l.run requests).1, s') ∧ Shows s' (l.run requests).2 := by
  induction requests generalizing s l with
  | nil => exact ⟨s, rfl, h⟩
  | cons request requests ih =>
    obtain ⟨now, later⟩ := admitted
    obtain ⟨s₁, answered, h₁⟩ := h.exists_answer valid now
    obtain ⟨s₂, ran, h₂⟩ := ih h₁ (valid.answer now) later
    exact ⟨s₂, by simp [run, answered, ran, RoleLists.run, bind, Except.bind, pure, Except.pure],
      h₂⟩

end TrackedSets

/-! ## All runs -/

theorem RoleLists.Valid.run {l : RoleLists} {requests : List SetRequest} (valid : l.Valid)
    (admitted : l.AdmitsAll requests) : (l.run requests).2.Valid := by
  induction requests generalizing l with
  | nil => exact valid
  | cons request requests ih => exact ih (valid.answer admitted.1) admitted.2

/-- After any requests that make sense, no plain list repeats an object and no two share one. The
linked lists have come to an end with each request, without a fault, have given the answers of the
plain lists, and cannot be told from them; nor can the entries. -/
theorem LinkedSets.views_of_run {requests : List SetRequest}
    (admitted : ({} : RoleLists).AdmitsAll requests) :
    let (replies, lists) := ({} : RoleLists).run requests
    lists.Valid ∧
      (∃ t, ({} : LinkedSets).run requests = some (.ok (replies, t)) ∧ t.views = lists.views) ∧
      ∃ s, ({} : TrackedSets).run requests = .ok (replies, s) ∧ s.views = lists.views := by
  have valid := RoleLists.valid_empty.run admitted
  obtain ⟨t, ran, represents⟩ := represents_empty.exists_run RoleLists.valid_empty admitted
  obtain ⟨s, ran', shows'⟩ := TrackedSets.shows_empty.exists_run RoleLists.valid_empty admitted
  exact ⟨valid, ⟨t, ran, represents.views_eq valid⟩, s, ran', shows'.views_eq valid⟩

/-- Three objects: one is inserted twice, moved behind the others, merged and removed. -/
theorem LinkedSets.views_of_run_merged :
    ∃ t, ({} : LinkedSets).run
        [.insert ⟨0⟩ .new, .insert ⟨1⟩ .new, .insert ⟨0⟩ .isolated, .insert ⟨2⟩ .inCollection,
          .setGcRefs ⟨1⟩ 0, .moveTo ⟨0⟩ .new, .merge .new .inCollection, .remove ⟨2⟩,
          .remove ⟨2⟩] =
        some (.ok ([.inserted true, .inserted true, .inserted false, .inserted true, .done, .done,
          .done, .removed (some .inCollection), .removed none], t)) ∧
      t.members .inCollection = some [⟨1⟩, ⟨0⟩] ∧ t.members .new = some [] ∧
      t.nextOf ⟨1⟩ = some ⟨0⟩ ∧ t.gcRefs ⟨1⟩ = some 0 ∧ t.total = 2 := by
  have admitted : ({} : RoleLists).AdmitsAll
      [.insert ⟨0⟩ .new, .insert ⟨1⟩ .new, .insert ⟨0⟩ .isolated, .insert ⟨2⟩ .inCollection,
        .setGcRefs ⟨1⟩ 0, .moveTo ⟨0⟩ .new, .merge .new .inCollection, .remove ⟨2⟩,
        .remove ⟨2⟩] := by decide
  obtain ⟨-, ⟨t, ran, same⟩, -⟩ := LinkedSets.views_of_run admitted
  exact ⟨t, ran, congrFun (congrArg SetViews.members same) .inCollection,
    congrFun (congrArg SetViews.members same) .new,
    congrFun (congrArg SetViews.nextOf same) ⟨1⟩, congrFun (congrArg SetViews.gcRefs same) ⟨1⟩,
    congrArg SetViews.total same⟩

end CycleCollector
