import Mathlib.Data.List.Nodup
import Std.Data.HashMap.Lemmas
import CycleCollector.TrackedSets.Lemmas
import CycleCollector.TrackedSets.Requests
/-!
# Chains of links

A *chain* is a list of objects whose links name each other in order, and one role. The lists of the
four roles are chains from end to end, and they share no object, so what is done to the links of one
list leaves the others alone. Each operation is described by what it makes of the chains; a chain
is cut and joined at a neighbour, as `chain_append` says.

## Main definitions

* `LinkedSets.Chain`: the links of some objects between two neighbours.
* `LinkedSets.Linked`: every list is a chain, and its ends are as they should be.

## Main statements

* `follow_of_chain`, `exists_relabel`: a walk along a chain ends, and meets its objects in order.
* `Linked.exists_unlink`, `Linked.exists_pushBack`, `Linked.exists_merge`: what the operations do.
-/

namespace CycleCollector

theorem Role.slot_inj {r r' : Role} : r.slot = r'.slot ↔ r = r' := by
  cases r <;> cases r' <;> decide

def Ends.ofList (os : List ObjectId) : Ends := ⟨os.head?, os.getLast?, os.length⟩

theorem filter_ne_of_notMem {os : List ObjectId} {o : ObjectId} (h : o ∉ os) :
    os.filter (· ≠ o) = os :=
  List.filter_eq_self.2 fun p mem => by simpa using ne_of_mem_of_not_mem mem h

theorem Ends.ofList_without (before after : List ObjectId) (o : ObjectId) :
    { head := if before = [] then after.head? else (Ends.ofList (before ++ o :: after)).head
      tail := if after = [] then before.getLast? else (Ends.ofList (before ++ o :: after)).tail
      size := (Ends.ofList (before ++ o :: after)).size - 1 : Ends } =
      .ofList (before ++ after) := by
  cases before <;> cases after <;>
    simp [Ends.ofList, List.getLast?_cons, List.getLast?_append]
  omega

theorem Ends.ofList_append_cons (before after : List ObjectId) (o : ObjectId) :
    { head := if before = [] then some o else (Ends.ofList before).head
      tail := (Ends.ofList (o :: after)).tail
      size := (Ends.ofList before).size + (Ends.ofList (o :: after)).size : Ends } =
      .ofList (before ++ o :: after) := by
  cases before <;> simp [Ends.ofList, List.getLast?_cons, List.getLast?_append]
  omega

namespace LinkedSets

variable {t t' : LinkedSets} {o p : ObjectId} {r r' : Role}
  {prev next : Option ObjectId} {os before after : List ObjectId}

/-! ## One link, one pair of ends -/

@[simp] theorem endsOf_modifyEnds (t : LinkedSets) (r r' : Role) (f : Ends → Ends) :
    (t.modifyEnds r f).endsOf r' = if r = r' then f (t.endsOf r) else t.endsOf r' := by
  have index : r.slot.val = r'.slot.val ↔ r = r' := by rw [Fin.val_inj, Role.slot_inj]
  simp only [endsOf, modifyEnds, Fin.getElem_fin, Vector.getElem_set, index]

@[simp] theorem links_modifyEnds (t : LinkedSets) (r : Role) (f : Ends → Ends) :
    (t.modifyEnds r f).links = t.links := rfl

@[simp] theorem gcRefs_modifyEnds (t : LinkedSets) (r : Role) (f : Ends → Ends) :
    (t.modifyEnds r f).gcRefs = t.gcRefs := rfl

@[simp] theorem endsOf_setLink (t : LinkedSets) (o : ObjectId) (l : Link) (r : Role) :
    (t.setLink o l).endsOf r = t.endsOf r := rfl

@[simp] theorem links_setLink_self (t : LinkedSets) (o : ObjectId) (l : Link) :
    (t.setLink o l).links[o]? = some l := by
  simp [setLink]

theorem links_setLink_of_ne (t : LinkedSets) (l : Link) (ne : p ≠ o) :
    (t.setLink o l).links[p]? = t.links[p]? := by
  simp [setLink, Std.HashMap.getElem?_insert, Ne.symm ne]

theorem gcRefs_setLink (t : LinkedSets) (o p : ObjectId) (l : Link) :
    (t.setLink o l).gcRefs p = if p = o then some l.gcRefs else t.gcRefs p := by
  simp only [gcRefs, setLink, Std.HashMap.getElem?_insert, beq_iff_eq, eq_comm (a := o)]
  split <;> rfl

/-- Only places change when a link is replaced by one with the same cyclic count. -/
theorem gcRefs_setLink_of_some {l l' : Link} (h : t.links[o]? = some l)
    (same : l'.gcRefs = l.gcRefs) : (t.setLink o l').gcRefs = t.gcRefs := by
  funext p
  rw [gcRefs_setLink]
  split
  · next eq => simp [eq, gcRefs, h, same]
  · rfl

theorem links_dropLink_of_ne (t : LinkedSets) (ne : p ≠ o) :
    (t.dropLink o).links[p]? = t.links[p]? := by
  simp [dropLink, Std.HashMap.getElem?_erase, Ne.symm ne]

theorem gcRefs_dropLink (t : LinkedSets) (o p : ObjectId) :
    (t.dropLink o).gcRefs p = if p = o then none else t.gcRefs p := by
  simp only [gcRefs, dropLink, Std.HashMap.getElem?_erase, beq_iff_eq, eq_comm (a := o)]
  split <;> rfl

theorem modifyLink_of_some {l : Link} (h : t.links[o]? = some l) (f : Link → Link) :
    t.modifyLink o f = .ok (t.setLink o (f l)) := by
  simp [modifyLink, h]

/-! ## Chains -/

/-- The links of `os` name role `r` and, between the neighbours `prev` and `next`, each other in
order. -/
def Chain (t : LinkedSets) (r : Role) :
    Option ObjectId → List ObjectId → Option ObjectId → Prop
  | _, [], _ => True
  | prev, o :: os, next =>
    (∃ n, t.links[o]? = some ⟨r, prev, os.head?.or next, n⟩) ∧ Chain t r (some o) os next

@[simp] theorem chain_nil : Chain t r prev [] next := trivial

theorem chain_append :
    Chain t r prev (before ++ after) next ↔
      Chain t r prev before (after.head?.or next) ∧
        Chain t r (before.getLast?.or prev) after next := by
  induction before generalizing prev with
  | nil => simp
  | cons o os ih =>
    have last : (o :: os).getLast?.or prev = os.getLast?.or (some o) := by
      cases os with
      | nil => rfl
      | cons p os => simp [List.getLast?_cons]
    simp only [List.cons_append, Chain, ih, List.head?_append, Option.or_assoc, last, and_assoc]

/-- A chain stays one while its own objects keep their places. -/
theorem Chain.imp (h : Chain t r prev os next)
    (keep : ∀ o ∈ os, ∀ {prev next n}, t.links[o]? = some ⟨r, prev, next, n⟩ →
      ∃ n, t'.links[o]? = some ⟨r, prev, next, n⟩) : Chain t' r prev os next := by
  induction os generalizing prev with
  | nil => trivial
  | cons o os ih =>
    obtain ⟨⟨n, link⟩, rest⟩ := h
    exact ⟨keep o (by simp) link, ih rest fun p mem => keep p (by simp [mem])⟩

/-- A chain depends on the links of its own objects only. -/
theorem Chain.congr (h : Chain t r prev os next)
    (same : ∀ o ∈ os, t'.links[o]? = t.links[o]?) : Chain t' r prev os next :=
  h.imp fun o mem _ _ n link => ⟨n, (same o mem).trans link⟩

@[simp] theorem chain_modifyEnds {f : Ends → Ends} :
    Chain (t.modifyEnds r' f) r prev os next ↔ Chain t r prev os next :=
  ⟨fun h => h.congr fun _ _ => rfl, fun h => h.congr fun _ _ => rfl⟩

/-- A walk along a chain that ends meets its objects. -/
theorem follow_of_chain (h : Chain t r prev os none) : t.follow os.head? = some os := by
  induction os generalizing prev with
  | nil => rw [List.head?_nil, follow]
  | cons o os ih =>
    obtain ⟨⟨n, link⟩, rest⟩ := h
    have successor : t.nextOf o = os.head? := by simp [nextOf, link]
    rw [List.head?_cons, follow, successor, ih rest]
    rfl

theorem exists_setNext {old : Option ObjectId} (h : Chain t r none before old)
    (nodup : before.Nodup) (next : Option ObjectId) :
    ∃ t', t.setNext r before.getLast? next = .ok t' ∧ Chain t' r none before next ∧
      (∀ o, o ∉ before → t'.links[o]? = t.links[o]?) ∧
      (∀ r', t'.endsOf r' = if r = r' ∧ before = [] then { t.endsOf r with head := next }
        else t.endsOf r') ∧
      t'.gcRefs = t.gcRefs := by
  rcases List.eq_nil_or_concat before with rfl | ⟨init, p, rfl⟩
  · exact ⟨_, rfl, trivial, fun _ _ => rfl, fun r' => by simp, gcRefs_modifyEnds ..⟩
  · rw [List.concat_eq_append] at *
    obtain ⟨chain, ⟨n, link⟩, -⟩ := chain_append.1 h
    have absent : p ∉ init := by
      rw [List.nodup_append] at nodup
      exact fun mem => nodup.2.2 p mem p (by simp) rfl
    refine ⟨t.setLink p ⟨r, init.getLast?, next, n⟩, ?_, ?_, fun o out => ?_, fun r' => by simp,
      gcRefs_setLink_of_some link rfl⟩
    · simp [setNext, modifyLink_of_some link]
    · refine chain_append.2 ⟨chain.congr fun o mem => links_setLink_of_ne t _ ?_, ⟨n, by simp⟩,
        trivial⟩
      exact ne_of_mem_of_not_mem mem absent
    · exact links_setLink_of_ne t _ fun same => out (by simp [same])

theorem exists_setPrev {old : Option ObjectId} (h : Chain t r old after none)
    (nodup : after.Nodup) (prev : Option ObjectId) :
    ∃ t', t.setPrev r after.head? prev = .ok t' ∧ Chain t' r prev after none ∧
      (∀ o, o ∉ after → t'.links[o]? = t.links[o]?) ∧
      (∀ r', t'.endsOf r' = if r = r' ∧ after = [] then { t.endsOf r with tail := prev }
        else t.endsOf r') ∧
      t'.gcRefs = t.gcRefs := by
  cases after with
  | nil => exact ⟨_, rfl, trivial, fun _ _ => rfl, fun r' => by simp, gcRefs_modifyEnds ..⟩
  | cons n rest =>
    obtain ⟨⟨k, link⟩, chain⟩ := h
    refine ⟨_, modifyLink_of_some link _, ⟨⟨k, by simp⟩, chain.congr fun o mem => ?_⟩,
      fun o out => ?_, fun r' => by simp, gcRefs_setLink_of_some link rfl⟩
    · exact links_setLink_of_ne t _ (ne_of_mem_of_not_mem mem (List.nodup_cons.1 nodup).1)
    · exact links_setLink_of_ne t _ fun same => out (by simp [same])

/-! ## Four lists -/

structure Linked (t : LinkedSets) (lists : Role → List ObjectId) : Prop where
  chain : ∀ r, Chain t r none (lists r) none
  ends : ∀ r, t.endsOf r = .ofList (lists r)

variable {lists : Role → List ObjectId}

/-- Links the neighbours of an object with each other. -/
theorem exists_bypass (h : Chain t r none (before ++ o :: after) none)
    (nodup : (before ++ o :: after).Nodup) :
    ∃ t₁ t₂, t.setNext r before.getLast? after.head? = .ok t₁ ∧
      t₁.setPrev r after.head? before.getLast? = .ok t₂ ∧
      Chain t₂ r none (before ++ after) none ∧
      (∀ p, p ∉ before ++ after → t₂.links[p]? = t.links[p]?) ∧
      (∀ r', r ≠ r' → t₂.endsOf r' = t.endsOf r') ∧
      t₂.endsOf r =
        { head := if before = [] then after.head? else (t.endsOf r).head
          tail := if after = [] then before.getLast? else (t.endsOf r).tail
          size := (t.endsOf r).size } ∧
      t₂.gcRefs = t.gcRefs := by
  obtain ⟨nodupBefore, nodupAfter, distinct⟩ := List.nodup_append.1 nodup
  have distinct (p : ObjectId) (mem : p ∈ before) (mem' : p ∈ after) : False :=
    distinct p mem p (by simp [mem']) rfl
  obtain ⟨chainBefore, -, chainAfter⟩ := chain_append.1 h
  obtain ⟨t₁, set₁, before₁, frame₁, ends₁, counts₁⟩ :=
    exists_setNext chainBefore nodupBefore after.head?
  have after₁ : Chain t₁ r (some o) after none :=
    chainAfter.congr fun p mem => frame₁ p fun mem' => distinct p mem' mem
  obtain ⟨t₂, set₂, after₂, frame₂, ends₂, counts₂⟩ :=
    exists_setPrev after₁ (List.nodup_cons.1 nodupAfter).2 before.getLast?
  have before₂ : Chain t₂ r none before after.head? :=
    before₁.congr fun p mem => frame₂ p (distinct p mem)
  refine ⟨t₁, t₂, set₁, set₂, chain_append.2 ⟨?_, ?_⟩, fun p out => ?_, fun r' ne => ?_, ?_,
    counts₂.trans counts₁⟩
  · rwa [Option.or_none]
  · rwa [Option.or_none]
  · rw [List.mem_append, not_or] at out
    exact (frame₂ p out.2).trans (frame₁ p out.1)
  · rw [ends₂, if_neg fun same => ne same.1, ends₁, if_neg fun same => ne same.1]
  · rw [ends₂, ends₁]
    split <;> split <;> simp_all

theorem Linked.exists_unlink (h : Linked t lists) (apart : Apart lists) (mem : o ∈ lists r) :
    ∃ t', t.unlink o = .ok (some (r, t')) ∧ Linked t' (fun r => (lists r).filter (· ≠ o)) ∧
      t'.gcRefs = t.gcRefs := by
  obtain ⟨before, after, split⟩ := List.append_of_mem mem
  have nodup := apart.nodup r
  have chain := h.chain r
  rw [split] at nodup chain
  have absent : o ∉ before ++ after := (List.nodup_middle.1 nodup).notMem
  obtain ⟨n, link⟩ : ∃ n, t.links[o]? = some ⟨r, before.getLast?, after.head?, n⟩ := by
    simpa using (chain_append.1 chain).2.1
  obtain ⟨t₁, t₂, set₁, set₂, chain₂, frame₂, others₂, ends₂, counts₂⟩ := exists_bypass chain nodup
  let t₃ := t₂.modifyEnds r fun e => { e with size := e.size - 1 }
  have link₃ : t₃.links[o]? = _ := (frame₂ o absent).trans link
  have frame₃ (l : Link) {p : ObjectId} (ne : p ≠ o) :
      (t₃.setLink o l).links[p]? = t₂.links[p]? := links_setLink_of_ne t₃ l ne
  have counts₃ : (t₃.setLink o ⟨r, none, none, n⟩).gcRefs = t₃.gcRefs :=
    gcRefs_setLink_of_some link₃ rfl
  have left : (lists r).filter (· ≠ o) = before ++ after := by
    rw [List.mem_append, not_or] at absent
    rw [split, List.filter_append, filter_ne_of_notMem absent.1, List.filter_cons,
      filter_ne_of_notMem absent.2]
    simp
  have kept (r' : Role) (ne : r ≠ r') : (lists r').filter (· ≠ o) = lists r' :=
    filter_ne_of_notMem fun mem' => ne (apart.disjoint mem mem')
  refine ⟨t₃.setLink o ⟨r, none, none, n⟩, ?_, ⟨fun r' => ?_, fun r' => ?_⟩,
    counts₃.trans counts₂⟩
  · simp only [unlink, link, set₁, set₂, bind, Except.bind, pure, Except.pure]
    rw [modifyLink_of_some link₃]
  · by_cases same : r = r'
    · subst same
      rw [left]
      exact chain₂.congr fun p mem => frame₃ _ (ne_of_mem_of_not_mem mem absent)
    · rw [kept r' same]
      -- the neighbours of `o` have its role, so the other lists keep their links
      refine (h.chain r').congr fun p mem' => ?_
      have out : p ∉ before ++ o :: after := fun here => same (apart.disjoint (split ▸ here) mem')
      have ne : p ≠ o := fun eq => out (by simp [eq])
      have out : p ∉ before ++ after := fun here => out (by grind)
      exact (frame₃ _ ne).trans (frame₂ p out)
  · by_cases same : r = r'
    · subst same
      have old := h.ends r
      rw [split] at old
      rw [endsOf_setLink, endsOf_modifyEnds, if_pos rfl, ends₂, old, left]
      exact Ends.ofList_without before after o
    · rw [kept r' same, endsOf_setLink, endsOf_modifyEnds, if_neg same, others₂ r' same, h.ends r']

theorem Linked.exists_pushBack {l : Link} (h : Linked t lists) (apart : Apart lists)
    (out : ∀ r, o ∉ lists r) (link : t.links[o]? = some l) (r : Role) :
    ∃ t', t.pushBack o r = .ok t' ∧
      Linked t' (fun r' => lists r' ++ if r = r' then [o] else []) ∧ t'.gcRefs = t.gcRefs := by
  have tail : (t.endsOf r).tail = (lists r).getLast? := by rw [h.ends r, Ends.ofList]
  let t₁ := t.setLink o ⟨r, (lists r).getLast?, none, l.gcRefs⟩
  have counts₁ : t₁.gcRefs = t.gcRefs := gcRefs_setLink_of_some link rfl
  have chain₁ (r' : Role) : Chain t₁ r' none (lists r') none :=
    (h.chain r').congr fun p mem => links_setLink_of_ne t _ (ne_of_mem_of_not_mem mem (out r'))
  obtain ⟨t₂, set₂, chain₂, frame₂, ends₂, counts₂⟩ :=
    exists_setNext (chain₁ r) (apart.nodup r) (some o)
  refine ⟨t₂.modifyEnds r fun e => { e with tail := some o, size := e.size + 1 }, ?_,
    ⟨fun r' => ?_, fun r' => ?_⟩,
    counts₂.trans counts₁⟩
  · simp only [pushBack, tail, modifyLink_of_some link, bind, Except.bind, pure, Except.pure]
    rw [set₂]
  · by_cases same : r = r'
    · subst same
      rw [if_pos rfl, chain_modifyEnds]
      refine chain_append.2 ⟨chain₂, ⟨l.gcRefs, ?_⟩, trivial⟩
      rw [frame₂ o (out r), links_setLink_self]
      simp
    · rw [if_neg same, List.append_nil, chain_modifyEnds]
      exact (chain₁ r').congr fun p mem => frame₂ p fun mem' => same (apart.disjoint mem' mem)
  · rw [endsOf_modifyEnds]
    by_cases same : r = r'
    · subst same
      rw [if_pos rfl, if_pos rfl, ends₂, endsOf_setLink, h.ends r, ← Ends.ofList_append_cons]
      split <;> simp_all [Ends.ofList]
    · rw [if_neg same, if_neg same, ends₂, if_neg fun both => same both.1, endsOf_setLink,
        h.ends r', List.append_nil]

/-- A link that is in no list can be replaced or dropped. -/
theorem Linked.congr (h : Linked t lists) (same : ∀ r, ∀ o ∈ lists r, t'.links[o]? = t.links[o]?)
    (ends : ∀ r, t'.endsOf r = t.endsOf r) : Linked t' lists where
  chain r := (h.chain r).congr (same r)
  ends r := (ends r).trans (h.ends r)

/-- A walk along a chain that ends gives its objects another role. -/
theorem exists_relabel (h : Chain t r prev os none) (nodup : os.Nodup) (role : Role) :
    ∃ t', t.relabel role os.head? = some (.ok t') ∧ Chain t' role prev os none ∧
      (∀ p, p ∉ os → t'.links[p]? = t.links[p]?) ∧ (∀ r, t'.endsOf r = t.endsOf r) ∧
      t'.gcRefs = t.gcRefs := by
  induction os generalizing t prev with
  | nil => exact ⟨t, by rw [List.head?_nil, relabel], trivial, fun _ _ => rfl, fun _ => rfl, rfl⟩
  | cons o os ih =>
    obtain ⟨⟨n, link⟩, rest⟩ := h
    obtain ⟨absent, nodup⟩ := List.nodup_cons.1 nodup
    have counts₁ : (t.setLink o ⟨role, prev, os.head?, n⟩).gcRefs = t.gcRefs :=
      gcRefs_setLink_of_some link rfl
    have rest₁ : Chain (t.setLink o ⟨role, prev, os.head?, n⟩) r (some o) os none :=
      rest.congr fun p mem => links_setLink_of_ne t _ (ne_of_mem_of_not_mem mem absent)
    obtain ⟨t', walked, chain, frame, ends, counts⟩ := ih rest₁ nodup
    refine ⟨t', ?_, ⟨⟨n, ?_⟩, chain⟩, fun p out => ?_, ends, counts.trans counts₁⟩
    · rw [List.head?_cons, relabel, link]
      simpa using walked
    · rw [frame o absent, links_setLink_self, Option.or_none]
    · rw [List.mem_cons, not_or] at out
      rw [frame p out.2, links_setLink_of_ne t _ out.1]

theorem exists_attach {first : ObjectId} (h : Chain t r none before none)
    (h' : Chain t r none (first :: os) none) (nodup : (before ++ first :: os).Nodup)
    (ends : t.endsOf r = .ofList before) :
    ∃ t', t.attach r first = .ok t' ∧ Chain t' r none (before ++ first :: os) none ∧
      (∀ p, p ∉ before ++ first :: os → t'.links[p]? = t.links[p]?) ∧
      (∀ r', r ≠ r' → t'.endsOf r' = t.endsOf r') ∧
      t'.endsOf r = { t.endsOf r with
        head := if before = [] then some first else (Ends.ofList before).head } ∧
      t'.gcRefs = t.gcRefs := by
  obtain ⟨nodupBefore, nodupAfter, distinct⟩ := List.nodup_append.1 nodup
  obtain ⟨t₁, set₁, before₁, frame₁, ends₁, counts₁⟩ :=
    exists_setNext h nodupBefore (some first)
  have after₁ : Chain t₁ r none (first :: os) none :=
    h'.congr fun p mem => frame₁ p fun mem' => distinct p mem' p mem rfl
  have tail : (t.endsOf r).tail = before.getLast? := by rw [ends, Ends.ofList]
  rcases List.eq_nil_or_concat before with rfl | ⟨init, q, rfl⟩
  · refine ⟨t₁, by simpa [attach, tail] using set₁, by simpa using after₁, fun p out => ?_,
      fun r' ne => ?_, ?_, counts₁⟩
    · exact frame₁ p (by simp)
    · rw [ends₁, if_neg fun both => ne both.1]
    · rw [ends₁, if_pos ⟨rfl, rfl⟩, if_pos rfl]
  · obtain ⟨t₂, set₂, after₂, frame₂, ends₂, counts₂⟩ :=
      exists_setPrev after₁ nodupAfter (some q)
    have before₂ : Chain t₂ r none (init.concat q) (some first) :=
      before₁.congr fun p mem => frame₂ p fun mem' => distinct p mem p mem' rfl
    refine ⟨t₂, ?_, chain_append.2 ⟨before₂, by simpa using after₂⟩, fun p out => ?_,
      fun r' ne => ?_, ?_, counts₂.trans counts₁⟩
    · have last : (init.concat q).getLast? = some q := by simp
      rw [last] at set₁ tail
      rw [List.head?_cons] at set₂
      simp only [attach, tail, set₁, bind, Except.bind, set₂]
    · rw [List.mem_append, not_or] at out
      rw [frame₂ p out.2, frame₁ p out.1]
    · simp [ends₂, ends₁, ne]
    · simp [ends₂, ends₁, ends]

theorem Linked.exists_merge {source target : Role} (h : Linked t lists) (apart : Apart lists)
    (ne : source ≠ target) :
    ∃ t', t.merge source target = some (.ok t') ∧
      Linked t' (fun r => if r = target then lists target ++ lists source
        else if r = source then [] else lists r) ∧ t'.gcRefs = t.gcRefs := by
  cases moved : lists source with
  | nil =>
    have same : (fun r => if r = target then lists target ++ [] else
        if r = source then [] else lists r) = lists := by
      funext r
      split
      · next eq => rw [eq, List.append_nil]
      · split
        · next eq => rw [eq, moved]
        · rfl
    refine ⟨t, ?_, by rwa [same], rfl⟩
    simp [merge, ne, h.ends source, moved, Ends.ofList]
  | cons first rest =>
    have distinct {r r' : Role} (apart' : r ≠ r') {p : ObjectId} (mem : p ∈ lists r) :
        p ∉ lists r' := fun mem' => apart' (apart.disjoint mem mem')
    have nodup : (lists target ++ first :: rest).Nodup := by
      rw [← moved]
      exact List.nodup_append'.2 ⟨apart.nodup target, apart.nodup source,
        fun p mem mem' => distinct ne mem' mem⟩
    obtain ⟨t₁, walked, chain₁, frame₁, ends₁, counts₁⟩ :=
      exists_relabel (moved ▸ h.chain source) (moved ▸ apart.nodup source) target
    rw [← moved] at frame₁
    have old₁ {r : Role} (apart' : r ≠ source) : Chain t₁ r none (lists r) none :=
      (h.chain r).congr fun p mem => frame₁ p (distinct apart' mem)
    obtain ⟨t₂, attached, chain₂, frame₂, others₂, ends₂, counts₂⟩ :=
      exists_attach (old₁ ne.symm) chain₁ nodup ((ends₁ target).trans (h.ends target))
    refine ⟨(t₂.modifyEnds target fun e =>
      { e with tail := (t.endsOf source).tail, size := e.size + (t.endsOf source).size }).modifyEnds
        source fun _ => {}, ?_, ⟨fun r => ?_, fun r => ?_⟩, ?_⟩
    · simp only [merge, ne, if_false, h.ends source, moved, Ends.ofList,
        List.head?_cons] at walked ⊢
      simp only [walked, attached, bind, Option.bind, Except.bind, pure, Except.pure]
    · rw [chain_modifyEnds, chain_modifyEnds]
      split
      · next eq => exact eq ▸ chain₂
      · next notTarget =>
        split
        · exact chain_nil
        · next notSource =>
          refine (old₁ notSource).congr fun p mem => frame₂ p ?_
          rw [← moved, List.mem_append, not_or]
          exact ⟨distinct notTarget mem, distinct notSource mem⟩
    · rw [endsOf_modifyEnds, endsOf_modifyEnds]
      by_cases isTarget : r = target
      · subst isTarget
        rw [if_neg ne, if_pos rfl, if_pos rfl, ends₂, ends₁, h.ends, h.ends source, moved,
          ← Ends.ofList_append_cons]
      · rw [if_neg isTarget]
        by_cases isSource : r = source
        · subst isSource
          rw [if_pos rfl, if_pos rfl]
          rfl
        · rw [if_neg (Ne.symm isSource), if_neg (Ne.symm isTarget), if_neg isSource,
            others₂ r (Ne.symm isTarget), ends₁, h.ends]
    · exact counts₂.trans counts₁

end LinkedSets

end CycleCollector
