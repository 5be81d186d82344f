import CycleCollector.World.Finish
import CycleCollector.TrackedSets.Lemmas
import CycleCollector.Arena.Lemmas
/-!
# Disposing of dead objects

The staged objects are split in two: those kept for a legacy finalizer, which hold every staged
object that one of them refers to, and the rest. Then the rest goes one way as a whole, to be
released or to be isolated. The foreign heap learns of all this by reports, and loses only what is
released.

## Main definitions

* `ForeignHeap.Leads`: a path of references.
* `ForeignHeap.Retained`, `ForeignHeap.Doomed`: the dead objects that legacy finalizers keep, and
  the others.
* `ForeignHeap.Finalizable`: the others have to wait for a finalizer.
* `ForeignHeap.Informed`: a foreign heap before and after some reports.
* `World.Marks`: what border marking hands to the host heap.
* `World.Keeps`: the staged objects that are kept for a legacy finalizer.
* `World.Disposes`: the ways that staged objects go.

## Main statements

* `ForeignHeap.of_mem_reach`, `ForeignHeap.mem_of_reach`: a search stays within a set that is closed
  under references to candidates, and what it finds is closed under them.
* `ForeignHeap.retained_iff`: a search from the legacy finalizers finds what they keep.
* `World.keeps_of_keepLegacy`, `World.disposes_of_disposeStaged`: keeping and disposing of staged
  objects.
-/

namespace CycleCollector

namespace ForeignHeap

/-! ## Selecting -/

section Select

variable {test : ObjectId → Except Fault Bool} {os ps : List ObjectId} {o : ObjectId}

theorem select_eq_ok : select test os = .ok ps ↔
    (∀ o ∈ os, ∃ b, test o = .ok b) ∧ ps = os.filter fun o => test o = .ok true := by
  induction os generalizing ps with
  | nil => simp [select, eq_comm]
  | cons o os ih =>
    simp only [select, bind_eq_ok, pure_eq_ok, ih, List.forall_mem_cons]
    constructor
    · rintro ⟨b, hb, _, ⟨others, rfl⟩, rfl⟩
      refine ⟨⟨⟨b, hb⟩, others⟩, ?_⟩
      cases b <;> simp [hb]
    · rintro ⟨⟨⟨b, hb⟩, others⟩, rfl⟩
      refine ⟨b, hb, _, ⟨others, rfl⟩, ?_⟩
      cases b <;> simp [hb]

theorem mem_select (h : select test os = .ok ps) : o ∈ ps ↔ o ∈ os ∧ test o = .ok true := by
  rw [(select_eq_ok.1 h).2]
  simp

end Select

variable {ρ : Type} [ForeignHeap ρ] {foreign : ρ} {kind : Finalizer}
  {os ps candidates stack found : List ObjectId} {o p : ObjectId}

theorem ne_nil_of_withFinalizer (h : withFinalizer foreign kind os = .ok ps) (some : ps ≠ []) :
    os ≠ [] := by
  rintro rfl
  exact some (select_eq_ok.1 h).2

theorem mem_withFinalizer (h : withFinalizer foreign kind os = .ok ps) :
    o ∈ ps ↔ o ∈ os ∧ finalizer foreign o = .ok kind := by
  rw [mem_select h]
  cases finalizer foreign o <;> simp [bind, Except.bind, pure, Except.pure]

theorem exists_withFinalizer (answers : ∀ o ∈ os, ∃ kind, finalizer foreign o = .ok kind)
    (kind : Finalizer) : ∃ ps, withFinalizer foreign kind os = .ok ps := by
  refine ⟨_, select_eq_ok.2 ⟨fun o mem => ?_, rfl⟩⟩
  obtain ⟨own, answer⟩ := answers o mem
  exact ⟨own = kind, by rw [answer]; rfl⟩

/-! ## Reach -/

theorem mem_claim (references candidates : List ObjectId) :
    (∀ o ∈ (claim references candidates).1, o ∈ references ∧ o ∈ candidates) ∧
      (∀ o ∈ (claim references candidates).2, o ∈ candidates) ∧
      ∀ o ∈ candidates, o ∈ (claim references candidates).1 ∨
        o ∉ references ∧ o ∈ (claim references candidates).2 := by
  induction references generalizing candidates with
  | nil => simp [claim]
  | cons p ps ih =>
    unfold claim
    split
    · next mem =>
      obtain ⟨claimed, left, split⟩ := ih (candidates.erase p)
      refine ⟨fun o ho => ?_, fun o ho => List.mem_of_mem_erase (left o ho), fun o ho => ?_⟩
      · rcases List.mem_cons.1 ho with rfl | ho
        · exact ⟨List.mem_cons_self, mem⟩
        · obtain ⟨refers, candidate⟩ := claimed o ho
          exact ⟨List.mem_cons_of_mem _ refers, List.mem_of_mem_erase candidate⟩
      · by_cases same : o = p
        · exact .inl (same ▸ List.mem_cons_self)
        · rcases split o ((List.mem_erase_of_ne same).2 ho) with here | ⟨apart, here⟩
          · exact .inl (List.mem_cons_of_mem _ here)
          · exact .inr ⟨by simp [same, apart], here⟩
    · next apart =>
      obtain ⟨claimed, left, split⟩ := ih candidates
      refine ⟨fun o ho => ?_, left, fun o ho => ?_⟩
      · exact ⟨List.mem_cons_of_mem _ (claimed o ho).1, (claimed o ho).2⟩
      · have ne : o ≠ p := fun same => apart (same ▸ ho)
        simpa [ne] using split o ho

theorem perm_claim (references candidates : List ObjectId) :
    ((claim references candidates).1 ++ (claim references candidates).2).Perm candidates := by
  induction references generalizing candidates with
  | nil => simp [claim]
  | cons o os ih =>
    unfold claim
    split
    · next mem => exact ((ih _).cons o).trans (List.perm_cons_erase mem).symm
    · exact ih candidates

inductive Leads (foreign : ρ) (o : ObjectId) : ObjectId → Prop
  | refl : Leads foreign o o
  | step {p q : ObjectId} {os : List ObjectId} : Leads foreign o p →
      references foreign p = .ok os → q ∈ os → Leads foreign o q

/-- A search does not leave a set that holds its stack and is closed under references to
candidates. -/
theorem of_mem_reach {P : ObjectId → Prop} (h : reach foreign candidates stack = .ok found)
    (start : ∀ o ∈ stack, P o)
    (closed : ∀ p os, P p → references foreign p = .ok os → ∀ o ∈ os, o ∈ candidates → P o) :
    ∀ o ∈ found, P o := by
  fun_induction reach foreign candidates stack generalizing found with
  | case1 =>
    obtain rfl := Except.ok.inj h
    simp
  | case2 => simp at h
  | case3 candidates p rest os refs claimed =>
    rename_i ih
    obtain ⟨further, searched, h⟩ := bind_eq_ok.1 h
    obtain rfl := pure_eq_ok.1 h
    obtain ⟨taken, left, -⟩ := mem_claim os candidates
    have direct : ∀ q ∈ claimed, P q := fun q mem =>
      closed p os (start p (by simp)) refs q (taken q mem).1 (taken q mem).2
    intro o mem
    rcases List.mem_append.1 mem with mem | mem
    · exact direct o mem
    · refine ih searched (fun q mem => ?_) (fun p os holds refs q refers mem =>
        closed p os holds refs q refers (left q mem)) o mem
      rcases List.mem_append.1 mem with mem | mem
      · exact direct q (List.mem_reverse.1 mem)
      · exact start q (by simp [mem])

/-- Whatever is found, and whatever the search started from, refers to no other candidate. -/
theorem mem_of_reach (h : reach foreign candidates stack = .ok found)
    (from_ : p ∈ stack ∨ p ∈ found)
    (refs : references foreign p = .ok os) (refers : o ∈ os) (candidate : o ∈ candidates) :
    o ∈ found := by
  fun_induction reach foreign candidates stack generalizing found with
  | case1 =>
    obtain rfl := Except.ok.inj h
    simp at from_
  | case2 => simp at h
  | case3 candidates q rest qs qrefs claimed =>
    rename_i ih
    obtain ⟨further, searched, h⟩ := bind_eq_ok.1 h
    obtain rfl := pure_eq_ok.1 h
    obtain ⟨-, -, split⟩ := mem_claim qs candidates
    rcases split o candidate with here | ⟨apart, left⟩
    · exact List.mem_append_left _ here
    · refine List.mem_append_right _ (ih searched ?_ left)
      have other : p ≠ q := by
        rintro rfl
        obtain rfl := Except.ok.inj (refs.symm.trans qrefs)
        exact apart refers
      simpa [other, or_assoc, or_comm, or_left_comm] using from_

/-- A search finds candidates, each once. -/
theorem perm_of_reach (h : reach foreign candidates stack = .ok found) :
    ∃ left, (found ++ left).Perm candidates := by
  fun_induction reach foreign candidates stack generalizing found with
  | case1 candidates =>
    obtain rfl := Except.ok.inj h
    exact ⟨candidates, .refl _⟩
  | case2 => simp at h
  | case3 candidates p rest os refs claimed =>
    rename_i ih
    obtain ⟨further, searched, h⟩ := bind_eq_ok.1 h
    obtain rfl := pure_eq_ok.1 h
    obtain ⟨left, perm⟩ := ih searched
    refine ⟨left, ?_⟩
    rw [List.append_assoc]
    exact (perm.append_left claimed).trans (perm_claim os candidates)

theorem exists_reach (stack_answers : ∀ o ∈ stack, ∃ os, references foreign o = .ok os)
    (answers : ∀ o ∈ candidates, ∃ os, references foreign o = .ok os) :
    ∃ found, reach foreign candidates stack = .ok found := by
  fun_induction reach foreign candidates stack with
  | case1 => exact ⟨_, rfl⟩
  | case2 candidates o rest fault refs =>
    obtain ⟨os, answer⟩ := stack_answers o (by simp)
    simp [refs] at answer
  | case3 candidates o rest os refs claimed ih =>
    obtain ⟨taken, left, -⟩ := mem_claim os candidates
    have search := ih (fun p mem => ?_) fun p mem => answers p (left p mem)
    · obtain ⟨further, searched⟩ := search
      exact ⟨_, bind_eq_ok.2 ⟨further, searched, rfl⟩⟩
    · rcases List.mem_append.1 mem with mem | mem
      · exact answers p (taken p (List.mem_reverse.1 mem)).2
      · exact stack_answers p (by simp [mem])

/-! ## Legacy finalizers -/

/-- Among dead objects, those that stay: the ones with a legacy finalizer, and whatever objects that
stay refer to. -/
inductive Retained (foreign : ρ) (dead : List ObjectId) : ObjectId → Prop
  | legacy {o : ObjectId} : o ∈ dead → finalizer foreign o = .ok .legacy → Retained foreign dead o
  | reference {o p : ObjectId} {os : List ObjectId} : Retained foreign dead p →
      references foreign p = .ok os → o ∈ os → o ∈ dead → Retained foreign dead o

variable {dead legacy reached : List ObjectId}

theorem Retained.mem (retained : Retained foreign dead o) : o ∈ dead := by
  cases retained with
  | legacy mem => exact mem
  | reference _ _ _ mem => exact mem

/-- Among dead objects, those that no legacy finalizer keeps. -/
def Doomed (foreign : ρ) (dead : List ObjectId) (o : ObjectId) : Prop :=
  o ∈ dead ∧ ¬Retained foreign dead o

/-- One of the objects that no legacy finalizer keeps has a modern finalizer. -/
def Finalizable (foreign : ρ) (dead : List ObjectId) : Prop :=
  ∃ o, Doomed foreign dead o ∧ finalizer foreign o = .ok .modern

/-- A path of references comes from a legacy finalizer. -/
theorem Retained.leads (retained : Retained foreign dead o) :
    ∃ p, Retained foreign dead p ∧ finalizer foreign p = .ok .legacy ∧ Leads foreign p o := by
  induction retained with
  | legacy mem own => exact ⟨_, .legacy mem own, own, .refl⟩
  | reference _ refs refers _ ih =>
    obtain ⟨p, retained, own, path⟩ := ih
    exact ⟨p, retained, own, path.step refs refers⟩

/-- The objects with legacy finalizers and what a search from them finds are those that stay. -/
theorem retained_iff (found : withFinalizer foreign .legacy dead = .ok legacy)
    (searched : reach foreign (dead.filter (· ∉ legacy)) legacy.reverse = .ok reached) :
    o ∈ legacy ++ reached ↔ Retained foreign dead o := by
  have first : ∀ p ∈ legacy, Retained foreign dead p := fun p mem =>
    .legacy ((mem_withFinalizer found).1 mem).1 ((mem_withFinalizer found).1 mem).2
  constructor
  · intro mem
    rcases List.mem_append.1 mem with mem | mem
    · exact first o mem
    · refine of_mem_reach searched (fun p mem => first p (List.mem_reverse.1 mem)) ?_ o mem
      intro p os retained refs q refers mem
      exact .reference retained refs refers (List.mem_filter.1 mem).1
  · intro retained
    induction retained with
    | legacy mem own => exact List.mem_append_left _ ((mem_withFinalizer found).2 ⟨mem, own⟩)
    | @reference o p os _ refs refers mem ih =>
      by_cases early : o ∈ legacy
      · exact List.mem_append_left _ early
      · refine List.mem_append_right _ (mem_of_reach searched ?_ refs refers ?_)
        · simpa using ih
        · simp [mem, early]

/-! ## Reports -/

/-- From one state of a foreign heap to another by reports alone. -/
inductive Informed (foreign : ρ) : ρ → Prop
  | refl : Informed foreign foreign
  | untracked {other : ρ} (o : ObjectId) :
      Informed foreign other → Informed foreign (noteUntracked other o)
  | legacy {other : ρ} (o : ObjectId) :
      Informed foreign other → Informed foreign (noteLegacyGarbage other o)
  | scheduled {other : ρ} (os : List ObjectId) :
      Informed foreign other → Informed foreign (scheduleFinalizers other os)

theorem Informed.legacyAll {other : ρ} (informed : Informed foreign other) (os : List ObjectId) :
    Informed foreign (os.foldl noteLegacyGarbage other) := by
  induction os generalizing other with
  | nil => exact informed
  | cons o os ih => exact ih (informed.legacy o)

end ForeignHeap

/-- An arena keeps its objects and its log of releases when it is informed. -/
theorem Arena.cells_of_informed {a b : Arena} (informed : ForeignHeap.Informed a b) :
    b.cells = a.cells ∧ b.released = a.released := by
  induction informed with
  | refl => exact ⟨rfl, rfl⟩
  | untracked o _ ih => exact ih
  | legacy o _ ih => exact ih
  | scheduled os _ ih => exact ih

theorem Arena.foldl_noteLegacyGarbage (a : Arena) (os : List ObjectId) :
    os.foldl ForeignHeap.noteLegacyGarbage a =
      { a with legacyGarbage := a.legacyGarbage ++ os } := by
  induction os generalizing a with
  | nil => simp
  | cons o os ih =>
    refine (ih _).trans ?_
    simp [ForeignHeap.noteLegacyGarbage]

/-! ## Keeping -/

namespace TrackedSets

variable {s : TrackedSets} {os : List ObjectId} {o : ObjectId} {r : Role}

@[simp] theorem contains_keepAll (s : TrackedSets) (os : List ObjectId) (o : ObjectId) :
    (s.keepAll os).contains o = s.contains o := by
  induction os generalizing s with
  | nil => rfl
  | cons p os ih => exact (ih _).trans (by simp)

theorem mem_members_keepAll (tracked : ∀ o ∈ os, s.contains o = true) :
    o ∈ (s.keepAll os).members r ↔ if o ∈ os then r = .inCollection else o ∈ s.members r := by
  induction os generalizing s with
  | nil => simp [keepAll]
  | cons p os ih =>
    have here := tracked p (by simp)
    have later := ih (s := (s.moved p .inCollection).withGcRefs p 1)
      fun q mem => by simpa using tracked q (by simp [mem])
    refine later.trans ?_
    rw [members_withGcRefs, mem_members, roleOf_moved here, mem_members]
    grind

theorem members_keepAll (tracked : ∀ o ∈ os, s.contains o = true) (ne : r ≠ .inCollection) :
    (s.keepAll os).members r = (s.members r).filter (· ∉ os) := by
  induction os generalizing s with
  | nil => exact (List.filter_eq_self.2 (by simp)).symm
  | cons p os ih =>
    have later := ih (s := (s.moved p .inCollection).withGcRefs p 1)
      fun q mem => by simpa using tracked q (by simp [mem])
    refine later.trans ?_
    rw [members_withGcRefs, members_moved (tracked p (by simp)), if_neg (Ne.symm ne),
      List.append_nil, List.filter_filter]
    exact List.filter_congr fun q _ => by simp [Bool.and_comm]

theorem members_keepAll_of_apart (subset : ∀ o ∈ os, o ∈ s.members r) {r' : Role}
    (ne : r' ≠ .inCollection) (ne' : r' ≠ r) : (s.keepAll os).members r' = s.members r' := by
  have tracked : ∀ o ∈ os, s.contains o = true :=
    fun o mem => contains_of_mem_members (subset o mem)
  rw [members_keepAll tracked ne, List.filter_eq_self]
  intro o mem
  have apart : o ∉ os := by
    intro early
    have role := mem_members.1 (subset o early)
    rw [mem_members.1 mem] at role
    exact ne' (Option.some.inj role)
  simpa using apart

/-- Objects that are kept come back behind those that never left, in order. -/
theorem members_keepAll_inCollection (nodup : os.Nodup) (tracked : ∀ o ∈ os, s.contains o = true)
    (apart : ∀ o ∈ os, o ∉ s.members .inCollection) :
    (s.keepAll os).members .inCollection = s.members .inCollection ++ os := by
  induction os generalizing s with
  | nil => simp [keepAll]
  | cons p os ih =>
    obtain ⟨once, nodup⟩ := List.nodup_cons.1 nodup
    have first : ((s.moved p .inCollection).withGcRefs p 1).members .inCollection =
        s.members .inCollection ++ [p] := by
      rw [members_withGcRefs, members_moved (tracked p (by simp)), if_pos rfl,
        List.filter_eq_self.2 fun q mem => by grind]
    have later := ih (s := (s.moved p .inCollection).withGcRefs p 1) nodup
      (fun q mem => by simpa using tracked q (by simp [mem])) (by grind)
    refine later.trans ?_
    rw [first, List.append_assoc, List.singleton_append]

theorem gcRefs_keepAll (tracked : ∀ o ∈ os, s.contains o = true) (o : ObjectId) :
    (s.keepAll os).gcRefs o = if o ∈ os then some 1 else s.gcRefs o := by
  induction os generalizing s with
  | nil => simp [keepAll]
  | cons p os ih =>
    have later := ih (s := (s.moved p .inCollection).withGcRefs p 1)
      fun q mem => by simpa using tracked q (by simp [mem])
    refine later.trans ?_
    rw [gcRefs_withGcRefs, gcRefs_moved, contains_moved, tracked p (by simp)]
    grind

end TrackedSets

namespace World

variable {ρ : Type} [ForeignHeap ρ] {w w₁ w' : World ρ} {foreign : ρ} {evidence : Evidence}
  {n : Nat} {os kept : List ObjectId} {bridges : List HostRef} {o : ObjectId} {h : HostRef}
  {outcome : Outcome}

omit [ForeignHeap ρ] in
@[simp] theorem sets_discardSnapshot (w : World ρ) (sets : TrackedSets) :
    (w.discardSnapshot sets).collector.sets = sets := rfl

omit [ForeignHeap ρ] in
@[simp] theorem foreign_discardSnapshot (w : World ρ) (sets : TrackedSets) :
    (w.discardSnapshot sets).foreign = w.foreign := rfl

omit [ForeignHeap ρ] in
@[simp] theorem host_discardSnapshot (w : World ρ) (sets : TrackedSets) :
    (w.discardSnapshot sets).host = w.host := rfl

/-! ## Border marking -/

theorem mem_heldBridges (marked : w.heldBridges evidence os = .ok bridges) : h ∈ bridges ↔
    ∃ o ∈ os, ForeignHeap.bridge w.foreign o = .ok (some h) ∧ w.isHeld o evidence = .ok true := by
  induction os generalizing bridges with
  | nil =>
    obtain rfl := Except.ok.inj marked
    simp
  | cons o os ih =>
    rw [heldBridges, bind_eq_ok] at marked
    obtain ⟨bridge, answer, marked⟩ := marked
    cases bridge with
    | none => simp [answer, ih marked]
    | some k =>
      simp only [bind_eq_ok, pure_eq_ok] at marked
      obtain ⟨held, hheld, others, hothers, rfl⟩ := marked
      cases held <;> simp [answer, hheld, ih hothers, eq_comm]

def Marks (w : World ρ) (evidence : Evidence) (h : HostRef) : Prop :=
  ∃ o, ForeignHeap.bridge w.foreign o = .ok (some h) ∧
    ((o ∈ w.collector.sets.members .new ∨ o ∈ w.collector.sets.members .inCollection) ∧
        w.isHeld o evidence = .ok true ∨
      o ∈ w.collector.sets.members .isolated ∧ w.isHeld o .rawCount = .ok true)

theorem marks_of_markBorder (marked : w.markBorder evidence = .ok w') :
    ∃ bridges stats, (∀ h, h ∈ bridges ↔ w.Marks evidence h) ∧
      w' = { w with
        collector := { w.collector with stats }
        host := w.host.promoteAll bridges } := by
  simp only [markBorder, bind_eq_ok, pure_eq_ok] at marked
  obtain ⟨fresh, hfresh, collected, hcollected, isolated, hisolated, rfl⟩ := marked
  refine ⟨fresh ++ collected ++ isolated, _, fun h => ?_, rfl⟩
  simp only [List.mem_append, mem_heldBridges hfresh, mem_heldBridges hcollected,
    mem_heldBridges hisolated, Marks]
  grind

/-- Border marking goes through when the foreign heap knows all tracked objects. -/
theorem exists_markBorder (evidence : Evidence)
    (answers : ∀ o, w.collector.sets.contains o = true →
      (∃ bridge, ForeignHeap.bridge w.foreign o = .ok bridge) ∧
        ∃ n, ForeignHeap.refcount w.foreign o = .ok n) :
    ∃ w', w.markBorder evidence = .ok w' := by
  have held : ∀ evidence (os : List ObjectId), (∀ o ∈ os, w.collector.sets.contains o = true) →
      ∃ bridges, w.heldBridges evidence os = .ok bridges := by
    intro evidence os tracked
    induction os with
    | nil => exact ⟨[], rfl⟩
    | cons o os ih =>
      obtain ⟨bridges, others⟩ := ih fun p mem => tracked p (by simp [mem])
      obtain ⟨⟨bridge, hbridge⟩, n, hn⟩ := answers o (tracked o (by simp))
      have evident : ∃ b, w.isHeld o evidence = .ok b := by
        cases evidence with
        | cyclicCount => exact ⟨_, rfl⟩
        | rawCount => exact ⟨_, by rw [isHeld, hn]; rfl⟩
      obtain ⟨b, hb⟩ := evident
      cases bridge <;> simp [heldBridges, hbridge, others, hb, bind, Except.bind, pure, Except.pure]
  have tracked : ∀ r, ∀ o ∈ w.collector.sets.members r, w.collector.sets.contains o = true :=
    fun r o => TrackedSets.contains_of_mem_members
  obtain ⟨fresh, hfresh⟩ := held evidence _ (tracked .new)
  obtain ⟨collected, hcollected⟩ := held evidence _ (tracked .inCollection)
  obtain ⟨isolated, hisolated⟩ := held .rawCount _ (tracked .isolated)
  exact ⟨_, by simp [markBorder, hfresh, hcollected, hisolated, bind, Except.bind]; rfl⟩

/-! ## The ways that staged objects go -/

/-- How the staged objects of `w` went: those of `kept` stay alive, those of `isolated` wait for
finalizers, and those of `released` are taken back by the heap `reported`, which knows of the
others. -/
structure Disposes (w : World ρ) (kept isolated released : List ObjectId) (reported : ρ)
    (w' : World ρ) : Prop where
  retained : ∀ o, o ∈ kept ↔
    ForeignHeap.Retained w.foreign (w.collector.sets.members .staged) o
  rest : isolated = (w.collector.sets.members .staged).filter (· ∉ kept) ∧ released = [] ∨
    isolated = [] ∧ released = (w.collector.sets.members .staged).filter (· ∉ kept)
  modern : isolated ≠ [] → ∃ foreign, ForeignHeap.Informed w.foreign foreign ∧
    ∃ o ∈ isolated, ForeignHeap.finalizer foreign o = .ok .modern
  informed : ForeignHeap.Informed w.foreign reported
  reports : isolated = [] → ∃ legacy : List ObjectId,
    reported = legacy.foldl ForeignHeap.noteLegacyGarbage w.foreign
  silent : w.collector.sets.members .staged = [] → reported = w.foreign
  released : ForeignHeap.releaseAll reported released = .ok w'.foreign
  staged : w'.collector.sets.members .staged = []
  new : w'.collector.sets.members .new = w.collector.sets.members .new
  waiting : w'.collector.sets.members .isolated = w.collector.sets.members .isolated ++ isolated
  inCollection : ∀ o, o ∈ w'.collector.sets.members .inCollection ↔
    o ∈ w.collector.sets.members .inCollection ∨ o ∈ kept
  counts : ∀ o, w'.collector.sets.contains o = true →
    w'.collector.sets.gcRefs o = if o ∈ kept then some 1 else w.collector.sets.gcRefs o
  border : ∃ bridges, w'.host = w.host.promoteAll bridges ∧ ∀ h, h ∈ bridges ↔
    Marks { w' with foreign := reported }
      (if isolated = [] then .cyclicCount else .rawCount) h
  collector : ∃ stats, w'.collector = { w.collector with sets := w'.collector.sets, stats }

theorem keepLegacy_eq_ok (kept : w.keepLegacy = .ok (n, w')) : ∃ legacy reached stats,
    ForeignHeap.withFinalizer w.foreign .legacy (w.collector.sets.members .staged) = .ok legacy ∧
      ForeignHeap.reach w.foreign ((w.collector.sets.members .staged).filter (· ∉ legacy))
        legacy.reverse = .ok reached ∧
      n = legacy.length ∧ w' = { w with
        collector :=
          { w.collector with sets := w.collector.sets.keepAll (legacy ++ reached), stats }
        foreign := legacy.foldl ForeignHeap.noteLegacyGarbage w.foreign } := by
  simp only [keepLegacy, bind_eq_ok, pure_eq_ok] at kept
  obtain ⟨legacy, found, reached, searched, kept⟩ := kept
  obtain ⟨rfl, rfl⟩ := Prod.mk.inj kept
  exact ⟨legacy, reached, _, found, searched, rfl, rfl⟩

structure Keeps (w : World ρ) (kept : List ObjectId) (w₁ : World ρ) : Prop where
  retained : ∀ o, o ∈ kept ↔
    ForeignHeap.Retained w.foreign (w.collector.sets.members .staged) o
  reports : ∃ legacy : List ObjectId,
    w₁.foreign = legacy.foldl ForeignHeap.noteLegacyGarbage w.foreign
  silent : w.collector.sets.members .staged = [] → w₁.foreign = w.foreign
  host : w₁.host = w.host
  collector : ∃ stats,
    w₁.collector = { w.collector with sets := w.collector.sets.keepAll kept, stats }

/-- The objects with legacy finalizers are kept, and what a search from them finds. -/
theorem keeps_of_reach {legacy reached : List ObjectId} {stats : Stats}
    (found : ForeignHeap.withFinalizer w.foreign .legacy (w.collector.sets.members .staged) =
      .ok legacy)
    (searched : ForeignHeap.reach w.foreign ((w.collector.sets.members .staged).filter (· ∉ legacy))
      legacy.reverse = .ok reached) :
    Keeps w (legacy ++ reached) { w with
      collector := { w.collector with sets := w.collector.sets.keepAll (legacy ++ reached), stats }
      foreign := legacy.foldl ForeignHeap.noteLegacyGarbage w.foreign } := by
  constructor
  case retained => exact fun _ => ForeignHeap.retained_iff found searched
  case reports => exact ⟨legacy, rfl⟩
  case silent =>
    intro none
    have : legacy = [] := by simpa [none] using (ForeignHeap.select_eq_ok.1 found).2
    rw [this, List.foldl_nil]
  case host => rfl
  case collector => exact ⟨_, rfl⟩

theorem keeps_of_keepLegacy (done : w.keepLegacy = .ok (n, w₁)) : ∃ kept, Keeps w kept w₁ := by
  obtain ⟨legacy, reached, _, found, searched, -, rfl⟩ := keepLegacy_eq_ok done
  exact ⟨_, keeps_of_reach found searched⟩

theorem Keeps.subset (keeps : Keeps w kept w₁) :
    ∀ o ∈ kept, o ∈ w.collector.sets.members .staged :=
  fun o mem => ((keeps.retained o).1 mem).mem

theorem Keeps.informed (keeps : Keeps w kept w₁) : ForeignHeap.Informed w.foreign w₁.foreign := by
  obtain ⟨legacy, reports⟩ := keeps.reports
  exact reports ▸ .legacyAll .refl legacy

theorem Keeps.sets (keeps : Keeps w kept w₁) :
    w₁.collector.sets = w.collector.sets.keepAll kept := by
  obtain ⟨_, collector⟩ := keeps.collector
  rw [collector]

theorem Keeps.tracked (keeps : Keeps w kept w₁) : ∀ o ∈ kept, w.collector.sets.contains o = true :=
  fun o mem => TrackedSets.contains_of_mem_members (keeps.subset o mem)

/-- The objects that are not kept are still staged. -/
theorem Keeps.staged (keeps : Keeps w kept w₁) : w₁.collector.sets.members .staged =
    (w.collector.sets.members .staged).filter (· ∉ kept) := by
  rw [keeps.sets, TrackedSets.members_keepAll keeps.tracked (by decide)]

theorem Keeps.members_eq (keeps : Keeps w kept w₁) {r : Role} (ne : r ≠ .inCollection)
    (ne' : r ≠ .staged) : w₁.collector.sets.members r = w.collector.sets.members r := by
  rw [keeps.sets, TrackedSets.members_keepAll_of_apart keeps.subset ne ne']

theorem Keeps.mem_inCollection (keeps : Keeps w kept w₁) (o : ObjectId) :
    o ∈ w₁.collector.sets.members .inCollection ↔
      o ∈ w.collector.sets.members .inCollection ∨ o ∈ kept := by
  rw [keeps.sets, TrackedSets.mem_members_keepAll keeps.tracked]
  grind

theorem Keeps.gcRefs (keeps : Keeps w kept w₁) (o : ObjectId) :
    w₁.collector.sets.gcRefs o = if o ∈ kept then some 1 else w.collector.sets.gcRefs o := by
  rw [keeps.sets, TrackedSets.gcRefs_keepAll keeps.tracked]

theorem isolateFinalizable_eq_ok (isolated : w.isolateFinalizable = .ok (n, w')) :
    ∃ finalizable, ForeignHeap.withFinalizer w.foreign .modern
        (w.collector.sets.members .staged) = .ok finalizable ∧
      (finalizable = [] ∧ n = 0 ∧ w' = w ∨
        finalizable ≠ [] ∧ n = (w.collector.sets.members .staged).length ∧ ∃ stats, w' = { w with
          collector := { w.collector with sets := w.collector.sets.merged .staged .isolated, stats }
          foreign := ForeignHeap.scheduleFinalizers w.foreign finalizable }) := by
  simp only [isolateFinalizable, bind_eq_ok] at isolated
  obtain ⟨finalizable, found, isolated⟩ := isolated
  refine ⟨finalizable, found, ?_⟩
  split at isolated
  · next none =>
    obtain ⟨rfl, rfl⟩ := Prod.mk.inj (pure_eq_ok.1 isolated)
    exact .inl ⟨List.isEmpty_iff.1 none, rfl, rfl⟩
  · next some =>
    obtain ⟨rfl, rfl⟩ := Prod.mk.inj (pure_eq_ok.1 isolated)
    exact .inr ⟨fun none => some (List.isEmpty_iff.2 none), rfl, _, rfl⟩

theorem releaseStaged_eq_ok (released : w.releaseStaged = .ok (n, w')) : ∃ foreign stats,
    n = (w.collector.sets.members .staged).length ∧
      ForeignHeap.releaseAll w.foreign (w.collector.sets.members .staged) = .ok foreign ∧
      w' = { w with
        collector := { w.collector with sets := w.collector.sets.cleared .staged, stats }
        foreign } := by
  simp only [releaseStaged, bind_eq_ok, pure_eq_ok] at released
  obtain ⟨foreign, done, h⟩ := released
  obtain ⟨rfl, rfl⟩ := Prod.mk.inj h
  exact ⟨foreign, _, rfl, done, rfl⟩

theorem gcRefs_cleared_of_contains {s : TrackedSets} {r : Role}
    (here : (s.cleared r).contains o = true) : (s.cleared r).gcRefs o = s.gcRefs o := by
  obtain ⟨r', mem⟩ := TrackedSets.contains_iff_exists_mem.1 here
  rw [TrackedSets.members_cleared] at mem
  split at mem
  · simp at mem
  · next ne =>
    refine TrackedSets.gcRefs_cleared fun role => ne ?_
    exact Option.some.inj (role.symm.trans (TrackedSets.mem_members.1 mem))

/-- Forgetting the staged objects changes nothing at the border. -/
theorem marks_cleared (c : Collector) (foreign : ρ) (g g' : HostHeap) (stats : Stats) :
    Marks ⟨{ c with sets := c.sets.cleared .staged, stats }, foreign, g⟩ evidence h ↔
      Marks ⟨c, foreign, g'⟩ evidence h := by
  have counts : ∀ o r, r ≠ Role.staged → o ∈ c.sets.members r →
      (c.sets.cleared .staged).gcRefs o = c.sets.gcRefs o := by
    intro o r ne mem
    refine TrackedSets.gcRefs_cleared fun role => ne ?_
    exact Option.some.inj ((TrackedSets.mem_members.1 mem).symm.trans role)
  have held : ∀ o r, r ≠ Role.staged → o ∈ c.sets.members r → ∀ evidence,
      isHeld ⟨{ c with sets := c.sets.cleared .staged, stats }, foreign, g⟩ o evidence =
        isHeld ⟨c, foreign, g'⟩ o evidence := by
    intro o r ne mem evidence
    cases evidence with
    | cyclicCount => simp [isHeld, counts o r ne mem]
    | rawCount => rfl
  have new := fun o => held o .new (by decide)
  have inCollection := fun o => held o .inCollection (by decide)
  have isolated := fun o => held o .isolated (by decide)
  simp only [Marks, TrackedSets.members_cleared, reduceCtorEq, if_false]
  grind

/-- With no modern finalizer among the rest, the rest is released. -/
theorem Keeps.disposes_of_release (keeps : Keeps w kept w₁)
    (released : ForeignHeap.releaseAll w₁.foreign (w₁.collector.sets.members .staged) = .ok foreign)
    (handed : ∀ h, h ∈ bridges ↔ Marks w₁ .cyclicCount h) (stats : Stats) :
    Disposes w kept [] ((w.collector.sets.members .staged).filter (· ∉ kept)) w₁.foreign
      { collector := { w₁.collector with sets := w₁.collector.sets.cleared .staged, stats }
        foreign
        host := w₁.host.promoteAll bridges } := by
  obtain ⟨_, collector⟩ := keeps.collector
  constructor
  case retained => exact keeps.retained
  case rest => exact .inr ⟨rfl, rfl⟩
  case modern => simp
  case informed => exact keeps.informed
  case reports => exact fun _ => keeps.reports
  case silent => exact keeps.silent
  case released => exact keeps.staged ▸ released
  case staged => simp
  case new => simp [keeps.members_eq]
  case waiting => simp [keeps.members_eq]
  case inCollection => simpa using keeps.mem_inCollection
  case counts => exact fun o here => (gcRefs_cleared_of_contains here).trans (keeps.gcRefs o)
  case border =>
    exact ⟨bridges, by rw [keeps.host], fun h => (handed h).trans (marks_cleared ..).symm⟩
  case collector => exact ⟨stats, by rw [collector]⟩

theorem Keeps.disposes_of_isolate {finalizable : List ObjectId}
    (keeps : Keeps w kept w₁) (some : finalizable ≠ [])
    (modern : ForeignHeap.withFinalizer w₁.foreign .modern (w₁.collector.sets.members .staged) =
      .ok finalizable)
    (handed : ∀ h, h ∈ bridges ↔ Marks { w₁ with
      collector := { w₁.collector with sets := w₁.collector.sets.merged .staged .isolated }
      foreign := ForeignHeap.scheduleFinalizers w₁.foreign finalizable } .rawCount h)
    (stats : Stats) :
    Disposes w kept ((w.collector.sets.members .staged).filter (· ∉ kept)) []
      (ForeignHeap.scheduleFinalizers w₁.foreign finalizable)
      { collector := { w₁.collector with
          sets := (w₁.collector.sets.merged .staged .isolated).cleared .staged, stats }
        foreign := ForeignHeap.scheduleFinalizers w₁.foreign finalizable
        host := w₁.host.promoteAll bridges } := by
  obtain ⟨_, collector⟩ := keeps.collector
  have waits : (w.collector.sets.members .staged).filter (· ∉ kept) ≠ [] :=
    keeps.staged ▸ ForeignHeap.ne_nil_of_withFinalizer modern some
  have members := fun r => TrackedSets.members_merged (show Role.staged ≠ .isolated by decide)
    w₁.collector.sets r
  constructor
  case retained => exact keeps.retained
  case rest => exact .inl ⟨rfl, rfl⟩
  case modern =>
    intro _
    obtain ⟨o, mem⟩ := List.exists_mem_of_ne_nil _ some
    refine ⟨_, keeps.informed, o, ?_⟩
    rw [← keeps.staged]
    exact (ForeignHeap.mem_withFinalizer modern).1 mem
  case informed => exact keeps.informed.scheduled _
  case reports => exact fun none => absurd none waits
  case silent =>
    intro none
    simp [none] at waits
  case released => rfl
  case staged => simp
  case new => simp [members, keeps.members_eq]
  case waiting => simp [members, keeps.members_eq, keeps.staged]
  case inCollection => simpa [members] using keeps.mem_inCollection
  case counts =>
    intro o here
    rw [gcRefs_cleared_of_contains here, TrackedSets.gcRefs_merged, keeps.gcRefs]
  case border =>
    rw [if_neg waits]
    exact ⟨bridges, by rw [keeps.host], fun h => (handed h).trans (marks_cleared ..).symm⟩
  case collector => exact ⟨stats, by rw [collector]⟩

theorem disposeStaged_eq_ok : w.disposeStaged = .ok (outcome, w') ↔
    ∃ legacy w₁ isolated w₂ w₃ released, w.keepLegacy = .ok (legacy, w₁) ∧
      w₁.isolateFinalizable = .ok (isolated, w₂) ∧
      w₂.markBorder (if isolated = 0 then .cyclicCount else .rawCount) = .ok w₃ ∧
      w₃.releaseStaged = .ok (released, w') ∧ outcome = .collected released isolated legacy := by
  simp only [disposeStaged, bind_eq_ok, pure_eq_ok]
  constructor
  · rintro ⟨⟨legacy, w₁⟩, kept, ⟨isolated, w₂⟩, isolates, w₃, marked, ⟨released, w₄⟩, releases, eq⟩
    obtain ⟨rfl, rfl⟩ := Prod.mk.inj eq
    exact ⟨legacy, w₁, isolated, w₂, w₃, released, kept, isolates, marked, releases, rfl⟩
  · rintro ⟨legacy, w₁, isolated, w₂, w₃, released, kept, isolates, marked, releases, rfl⟩
    exact ⟨_, kept, _, isolates, w₃, marked, _, releases, rfl⟩

/-- The outcome tells how many objects were released, and how many were isolated. -/
theorem exists_disposes_of_disposeStaged (disposed : w.disposeStaged = .ok (outcome, w')) :
    ∃ kept isolated released reported, Disposes w kept isolated released reported w' ∧
      ∃ legacy, outcome = .collected released.length isolated.length legacy := by
  obtain ⟨legacy, w₁, n, w₂, w₃, _, kept, isolated, marked, released, rfl⟩ :=
    disposeStaged_eq_ok.1 disposed
  obtain ⟨kept, keeps⟩ := keeps_of_keepLegacy kept
  obtain ⟨finalizable, modern, isolated⟩ := isolateFinalizable_eq_ok isolated
  obtain ⟨bridges, _, handed, rfl⟩ := marks_of_markBorder marked
  obtain ⟨foreign, _, rfl, taken, rfl⟩ := releaseStaged_eq_ok released
  rcases isolated with ⟨-, rfl, rfl⟩ | ⟨some, rfl, stats, rfl⟩
  · exact ⟨_, _, _, _, keeps.disposes_of_release taken handed _, legacy,
      by rw [← keeps.staged]; rfl⟩
  · have waits : (w₁.collector.sets.members .staged).length ≠ 0 := fun none =>
      ForeignHeap.ne_nil_of_withFinalizer modern some (List.length_eq_zero_iff.1 none)
    rw [if_neg waits] at handed
    have none : (w₁.collector.sets.merged .staged .isolated).members .staged = [] := by
      simp [TrackedSets.members_merged]
    obtain rfl : foreign = ForeignHeap.scheduleFinalizers w₁.foreign finalizable := by
      simpa [none, ForeignHeap.releaseAll, pure, Except.pure, eq_comm] using taken
    refine ⟨_, _, _, _, keeps.disposes_of_isolate some modern handed _, legacy, ?_⟩
    simp [none, keeps.staged]

theorem disposes_of_disposeStaged (disposed : w.disposeStaged = .ok (outcome, w')) :
    (∃ kept isolated released reported, Disposes w kept isolated released reported w') ∧
      ∃ released isolated legacy, outcome = .collected released isolated legacy := by
  obtain ⟨kept, isolated, released, reported, disposes, legacy, same⟩ :=
    exists_disposes_of_disposeStaged disposed
  exact ⟨⟨kept, isolated, released, reported, disposes⟩, released.length, isolated.length, legacy,
    same⟩

section Disposes

variable {isolated released : List ObjectId} {reported : ρ}
  (disposes : Disposes w kept isolated released reported w')

include disposes

theorem Disposes.subset : ∀ o ∈ kept, o ∈ w.collector.sets.members .staged :=
  fun o mem => ((disposes.retained o).1 mem).mem

/-- What is kept refers to no staged object that is not. -/
theorem Disposes.closed : ∀ p ∈ kept, ∀ os, ForeignHeap.references w.foreign p = .ok os →
    ∀ o ∈ os, o ∈ w.collector.sets.members .staged → o ∈ kept :=
  fun p mem _ refs o refers staged =>
    (disposes.retained o).2 (.reference ((disposes.retained p).1 mem) refs refers staged)

theorem Disposes.legacy : ∀ o ∈ kept, ∃ p ∈ kept,
    ForeignHeap.finalizer w.foreign p = .ok .legacy ∧ ForeignHeap.Leads w.foreign p o := by
  intro o mem
  obtain ⟨p, retained, own, path⟩ := ((disposes.retained o).1 mem).leads
  exact ⟨p, (disposes.retained p).2 retained, own, path⟩

theorem Disposes.nothing (none : w.collector.sets.members .staged = []) :
    kept = [] ∧ isolated = [] ∧ released = [] ∧ w'.foreign = w.foreign := by
  obtain rfl : kept = [] := List.eq_nil_iff_forall_not_mem.2 fun o mem => by
    simpa [none] using disposes.subset o mem
  have rest := disposes.rest
  simp only [none, List.filter_nil, or_self] at rest
  obtain ⟨rfl, rfl⟩ := rest
  have released := disposes.released
  rw [disposes.silent none] at released
  exact ⟨rfl, rfl, rfl, (pure_eq_ok.1 released).symm⟩

end Disposes

/-! ## When disposing goes through -/

theorem exists_keepLegacy (answers : ∀ o ∈ w.collector.sets.members .staged,
    (∃ kind, ForeignHeap.finalizer w.foreign o = .ok kind) ∧
      ∃ os, ForeignHeap.references w.foreign o = .ok os) :
    ∃ n w', w.keepLegacy = .ok (n, w') := by
  obtain ⟨legacy, hlegacy⟩ :=
    ForeignHeap.exists_withFinalizer (fun o mem => (answers o mem).1) .legacy
  have search : ∃ reached, ForeignHeap.reach w.foreign
      ((w.collector.sets.members .staged).filter (· ∉ legacy)) legacy.reverse = .ok reached := by
    refine ForeignHeap.exists_reach (fun o mem => ?_) fun o mem => ?_
    · have found := (ForeignHeap.mem_withFinalizer hlegacy).1 (List.mem_reverse.1 mem)
      exact (answers o found.1).2
    · exact (answers o (List.mem_filter.1 mem).1).2
  obtain ⟨reached, hreached⟩ := search
  exact ⟨_, _, by simp only [keepLegacy, hlegacy, bind, Except.bind, hreached]; rfl⟩

theorem exists_isolateFinalizable (answers : ∀ o ∈ w.collector.sets.members .staged,
    ∃ kind, ForeignHeap.finalizer w.foreign o = .ok kind) :
    ∃ n w', w.isolateFinalizable = .ok (n, w') := by
  obtain ⟨finalizable, found⟩ := ForeignHeap.exists_withFinalizer answers .modern
  simp only [isolateFinalizable, found, bind, Except.bind]
  split <;> exact ⟨_, _, rfl⟩

theorem exists_releaseStaged {foreign : ρ} (released : ForeignHeap.releaseAll w.foreign
    (w.collector.sets.members .staged) = .ok foreign) : ∃ n w', w.releaseStaged = .ok (n, w') :=
  ⟨_, _, by simp only [releaseStaged, withSets, count, released, bind, Except.bind]; rfl⟩

/-- With nothing staged, only border marking may ask questions. -/
theorem exists_disposeStaged_of_nothing (none : w.collector.sets.members .staged = [])
    (answers : ∀ o, w.collector.sets.contains o = true →
      (∃ bridge, ForeignHeap.bridge w.foreign o = .ok bridge) ∧
        ∃ n, ForeignHeap.refcount w.foreign o = .ok n) :
    ∃ outcome w', w.disposeStaged = .ok (outcome, w') := by
  have keeps : ∃ n w₁, w.keepLegacy = .ok (n, w₁) ∧ w₁.foreign = w.foreign ∧
      w₁.collector.sets = w.collector.sets := by
    obtain ⟨n, w₁, kept⟩ := exists_keepLegacy (w := w) (by simp [none])
    obtain ⟨os, keeps⟩ := keeps_of_keepLegacy kept
    obtain rfl : os = [] := List.eq_nil_iff_forall_not_mem.2 fun o mem => by
      simpa [none] using keeps.subset o mem
    exact ⟨n, w₁, kept, keeps.silent none, keeps.sets⟩
  obtain ⟨n, w₁, kept, foreign₁, sets₁⟩ := keeps
  have isolates : ∃ n, w₁.isolateFinalizable = .ok (n, w₁) := by
    obtain ⟨n, w₂, isolated⟩ := exists_isolateFinalizable (w := w₁) (by simp [sets₁, none])
    obtain ⟨finalizable, found, ⟨-, -, rfl⟩ | ⟨some, -⟩⟩ := isolateFinalizable_eq_ok isolated
    · exact ⟨n, isolated⟩
    · exact absurd (sets₁ ▸ none) (ForeignHeap.ne_nil_of_withFinalizer found some)
  obtain ⟨m, isolated⟩ := isolates
  have marks : ∃ w₂, w₁.markBorder (if m = 0 then .cyclicCount else .rawCount) = .ok w₂ ∧
      w₂.collector.sets = w.collector.sets := by
    obtain ⟨w₂, marked⟩ := exists_markBorder (w := w₁)
      (if m = 0 then .cyclicCount else .rawCount) (by simpa only [foreign₁, sets₁] using answers)
    obtain ⟨bridges, _, -, rfl⟩ := marks_of_markBorder marked
    exact ⟨_, marked, sets₁⟩
  obtain ⟨w₂, marked, sets₂⟩ := marks
  have nothing : ForeignHeap.releaseAll w₂.foreign (w₂.collector.sets.members .staged) =
      .ok w₂.foreign := by
    simp [sets₂, none, ForeignHeap.releaseAll, pure, Except.pure]
  obtain ⟨k, w₃, released⟩ := exists_releaseStaged nothing
  exact ⟨_, w₃, disposeStaged_eq_ok.2 ⟨n, w₁, m, w₁, w₂, k, kept, isolated, marked, released, rfl⟩⟩

end World

end CycleCollector
