import CycleCollector.Proofs.Accounting
import CycleCollector.Consistency
/-!
# The verdict of a pass

While dead objects are compared with their records they are staged one by one, so the tracked sets
change under the comparison. Staging does not change who takes part, hence each record is compared
as if none had been staged, and how far the examination came matters to nothing but the sets.
These it leaves with the objects examined so far entered, and reviving them undoes that.

## Main definitions

* `Snapshot.findsDead`: whether the snapshot found an object dead.
* `Snapshot.enterAll`: the tracked sets with the verdict on some objects entered.
* `Snapshot.Differs`: whether an object is not as recorded.
* `Snapshot.Undone`: the tracked sets after a pass that failed.

## Main statements

* `Snapshot.judge_consistent`, `Snapshot.judge_inconsistent`: the two ends of a pass.
-/

namespace CycleCollector

namespace TrackedSets

variable {s : TrackedSets} {o p : ObjectId} {r : Role}

/-! ## Taking part -/

theorem takesPart_iff : s.takesPart o = true ↔ ∃ r, o ∈ s.members r ∧ r ≠ .isolated := by
  simp only [takesPart, mem_members]
  cases s.roleOf o <;> simp

theorem takesPart_congr {s' : TrackedSets} (h : s'.roleOf o = s.roleOf o) :
    s'.takesPart o = s.takesPart o := by
  rw [takesPart, h, takesPart]

/-- Between two roles other than waiting for finalizers, an object keeps taking part. -/
theorem takesPart_moved (part : s.takesPart o = true) (ne : r ≠ .isolated) (p : ObjectId) :
    (s.moved o r).takesPart p = s.takesPart p := by
  obtain ⟨r', mem, -⟩ := takesPart_iff.1 part
  have role := roleOf_moved (contains_of_mem_members mem) r p
  by_cases same : p = o
  · subst p
    rw [part, takesPart, role]
    simp [ne]
  · rw [takesPart, role, if_neg same, takesPart]

/-! ## Reviving -/

theorem members_revived (s : TrackedSets) (r : Role) : s.revived.members r =
    if r = .inCollection then s.members .inCollection ++ s.members .staged
    else if r = .staged then [] else s.members r := by
  simp only [revived, members_merged (show Role.staged ≠ .inCollection by decide),
    members_mapGcRefs]

/-- Whatever is in collection after a revival counts as alive. -/
theorem gcRefs_revived (mem : o ∈ s.revived.members .inCollection) :
    ∃ n, s.revived.gcRefs o = some (n + 1) := by
  have before : s.roleOf o = some .inCollection ∨ s.roleOf o = some .staged := by
    simpa [members_revived, mem_members] using mem
  rw [revived, gcRefs_merged, gcRefs, find?_mapGcRefs]
  cases h : s.find? o with
  | none => simp [roleOf, h] at before
  | some e =>
    have role : e.role = .inCollection ∨ e.role = .staged := by simpa [roleOf, h] using before
    simp only [Option.map_some, Option.some.injEq]
    cases hn : e.gcRefs with
    | zero => exact ⟨0, by rcases role with role | role <;> simp [role]⟩
    | succ n =>
      rcases role with role | role
      · exact ⟨n, by simp [role]⟩
      · exact ⟨0, by simp [role]⟩

end TrackedSets

namespace Snapshot

variable {ρ : Type} [ForeignHeap ρ] {s : Snapshot} {sets sets' : TrackedSets} {foreign : ρ}
  {host : HostHeap} {o p : ObjectId} {os : List ObjectId} {r : Record}

def findsDead (s : Snapshot) (o : ObjectId) : Bool := (s.recordOf o).any Record.isDead

theorem findsDead_iff : s.findsDead o = true ↔ ∃ r, s.recordOf o = some r ∧ r.external = 0 := by
  simp [findsDead, Option.any_eq_true, Record.isDead]

theorem findsDead_iff_mem_dead (nodup : s.objects.Nodup) : s.findsDead o = true ↔ o ∈ s.dead := by
  simp only [findsDead_iff, recordOf_eq_some nodup, mem_dead]
  grind

/-! ## Entering verdicts -/

/-- Gives an object the count that the snapshot found, and stages it if it is dead. -/
def enter (s : Snapshot) (sets : TrackedSets) (o : ObjectId) : TrackedSets :=
  let counted := sets.withGcRefs o ((s.recordOf o).elim 1 Record.external)
  if s.findsDead o then counted.moved o .staged else counted

def enterAll (s : Snapshot) (sets : TrackedSets) (os : List ObjectId) : TrackedSets :=
  os.foldl s.enter sets

@[simp] theorem contains_enter (s : Snapshot) (sets : TrackedSets) (o p : ObjectId) :
    (s.enter sets o).contains p = sets.contains p := by
  unfold enter
  split <;> simp

theorem members_enter (s : Snapshot) (tracked : sets.contains o = true) (r : Role) :
    (s.enter sets o).members r = if s.findsDead o then
      (sets.members r).filter (· ≠ o) ++ (if r = .staged then [o] else []) else sets.members r := by
  unfold enter
  split
  · rw [TrackedSets.members_moved (by simpa using tracked), TrackedSets.members_withGcRefs]
    simp [eq_comm]
  · rw [TrackedSets.members_withGcRefs]

theorem gcRefs_enter (s : Snapshot) (tracked : sets.contains o = true) (p : ObjectId) :
    (s.enter sets o).gcRefs p =
      if p = o then some ((s.recordOf o).elim 1 Record.external) else sets.gcRefs p := by
  unfold enter
  split <;> simp [tracked]

theorem takesPart_enter (s : Snapshot) (part : sets.takesPart o = true) (p : ObjectId) :
    (s.enter sets o).takesPart p = sets.takesPart p := by
  have counted : ∀ p, (sets.withGcRefs o ((s.recordOf o).elim 1 Record.external)).takesPart p =
      sets.takesPart p := fun p => TrackedSets.takesPart_congr (by simp)
  unfold enter
  split
  · rw [TrackedSets.takesPart_moved (by rw [counted, part]) (by decide), counted]
  · exact counted p

@[simp] theorem contains_enterAll (s : Snapshot) (sets : TrackedSets) (os : List ObjectId)
    (p : ObjectId) : (s.enterAll sets os).contains p = sets.contains p := by
  induction os generalizing sets with
  | nil => rfl
  | cons o os ih => exact (ih (s.enter sets o)).trans (s.contains_enter sets o p)

/-- Entering verdicts stages the dead, in order, and moves nothing else. -/
theorem members_enterAll (s : Snapshot) (nodup : os.Nodup)
    (tracked : ∀ o ∈ os, sets.contains o = true) (fresh : ∀ o ∈ os, o ∉ sets.members .staged)
    (r : Role) : (s.enterAll sets os).members r =
      if r = .staged then sets.members .staged ++ os.filter s.findsDead
      else (sets.members r).filter fun o => !(os.contains o && s.findsDead o) := by
  induction os generalizing sets with
  | nil => split <;> simp [enterAll, *]
  | cons o os ih =>
    rw [List.nodup_cons] at nodup
    have step := members_enter s (tracked o (by simp))
    have unstaged : (sets.members .staged).filter (· ≠ o) = sets.members .staged :=
      List.filter_eq_self.2 fun p mem => by
        have := fresh o (by simp)
        grind
    have tracked' : ∀ p ∈ os, (s.enter sets o).contains p = true := by
      intro p mem
      rw [contains_enter, tracked p (by simp [mem])]
    have fresh' : ∀ p ∈ os, p ∉ (s.enter sets o).members .staged := by
      intro p mem
      rw [step, unstaged]
      have := fresh p (by simp [mem])
      have ne : p ≠ o := fun same => nodup.1 (same ▸ mem)
      split <;> simp [this, ne]
    refine (ih nodup.2 tracked' fresh').trans ?_
    rw [step, step, unstaged]
    by_cases staged : r = .staged
    · by_cases dead : s.findsDead o <;> simp [staged, dead]
    · simp only [staged, if_false, List.append_nil]
      split
      · next dead =>
        rw [List.filter_filter]
        refine List.filter_congr fun p _ => ?_
        by_cases same : p = o <;> simp [same, dead]
      · next alive =>
        refine List.filter_congr fun p _ => ?_
        by_cases same : p = o <;> simp [same, alive]

/-- With all verdicts entered, what was in collection is staged if it is dead. -/
theorem members_enterAll_inCollection (s : Snapshot) (staged : sets.members .staged = [])
    (r : Role) :
    (s.enterAll sets (sets.members .inCollection)).members r =
      if r = .staged then (sets.members .inCollection).filter s.findsDead
      else if r = .inCollection then (sets.members .inCollection).filter fun o => !s.findsDead o
      else sets.members r := by
  rw [members_enterAll s (sets.nodup_members _)
    (fun o mem => TrackedSets.contains_of_mem_members mem) (by simp [staged]), staged,
    List.nil_append]
  by_cases collected : r = .inCollection
  · subst r
    simp only [reduceCtorEq, if_false, if_true]
    exact List.filter_congr fun o mem => by simp [mem]
  · rw [if_neg collected]
    refine if_congr .rfl rfl (List.filter_eq_self.2 fun o mem => ?_)
    have apart : o ∉ sets.members .inCollection := by
      rw [TrackedSets.mem_members, TrackedSets.mem_members.1 mem]
      simpa using collected
    simp [apart]

theorem gcRefs_enterAll (s : Snapshot) (nodup : os.Nodup)
    (tracked : ∀ o ∈ os, sets.contains o = true) (p : ObjectId) :
    (s.enterAll sets os).gcRefs p =
      if p ∈ os then some ((s.recordOf p).elim 1 Record.external) else sets.gcRefs p := by
  induction os generalizing sets with
  | nil => simp [enterAll]
  | cons o os ih =>
    rw [List.nodup_cons] at nodup
    have tracked' : ∀ p ∈ os, (s.enter sets o).contains p = true := by
      intro p mem
      rw [contains_enter, tracked p (by simp [mem])]
    refine (ih nodup.2 tracked').trans ?_
    rw [gcRefs_enter s (tracked o (by simp))]
    grind

/-- With all verdicts entered, what stays in collection counts as alive. -/
theorem gcRefs_enterAll_of_alive (mem : o ∈ sets.members .inCollection)
    (alive : s.findsDead o = false) :
    ∃ n, (s.enterAll sets (sets.members .inCollection)).gcRefs o = some (n + 1) := by
  rw [gcRefs_enterAll s (sets.nodup_members _)
    (fun o mem => TrackedSets.contains_of_mem_members mem), if_pos mem]
  cases found : s.recordOf o with
  | none => exact ⟨0, rfl⟩
  | some r =>
    have positive : r.external ≠ 0 := fun dead => by
      simp [findsDead_iff.2 ⟨r, found, dead⟩] at alive
    exact ⟨r.external - 1, congrArg some (by simp only [Option.elim_some]; omega)⟩

/-! ## Examining -/

theorem isUnchanged_congr (same : ∀ o, sets'.takesPart o = sets.takesPart o) (s : Snapshot)
    (r : Record) : s.isUnchanged r sets' foreign host = s.isUnchanged r sets foreign host := by
  have filters : sets'.takesPart = sets.takesPart := funext same
  simp only [isUnchanged, filters]

/-- What an examination has found when it ends: every dead object is as recorded, or there is a
first one that is not. -/
inductive Examined (s : Snapshot) (foreign : ρ) (host : HostHeap) (sets : TrackedSets)
    (os : List ObjectId) : Verdict → TrackedSets → Prop
  | consistent : (∀ o ∈ os, ∀ r, s.recordOf o = some r → r.external = 0 →
      s.isUnchanged r sets foreign host = .ok true) →
      Examined s foreign host sets os .consistent (s.enterAll sets os)
  | inconsistent {done rest : List ObjectId} {o : ObjectId} {r : Record} :
      os = done ++ o :: rest → s.recordOf o = some r → r.external = 0 →
      s.isUnchanged r sets foreign host = .ok false →
      Examined s foreign host sets os .inconsistent ((s.enterAll sets done).withGcRefs o 0)

/-- An object as recorded is passed by, with its verdict entered. -/
theorem Examined.cons {verdict : Verdict} (here : sets.takesPart o = true)
    (first : ∀ r, s.recordOf o = some r → r.external = 0 →
      s.isUnchanged r sets foreign host = .ok true)
    (later : s.Examined foreign host (s.enter sets o) os verdict sets') :
    s.Examined foreign host sets (o :: os) verdict sets' := by
  have entered := takesPart_enter s here
  cases later with
  | consistent others =>
    refine .consistent fun p mem r hr dead => ?_
    rcases List.mem_cons.1 mem with rfl | mem
    · exact first r hr dead
    · rw [← isUnchanged_congr entered]
      exact others p mem r hr dead
  | @inconsistent done rest p r eq hr dead changed =>
    rw [isUnchanged_congr entered] at changed
    have split : o :: os = (o :: done) ++ p :: rest := by rw [eq]; rfl
    exact .inconsistent split hr dead changed

theorem examined_of_examine {verdict : Verdict} (part : ∀ o ∈ os, sets.takesPart o = true)
    (h : s.examine foreign host sets os = .ok (verdict, sets')) :
    s.Examined foreign host sets os verdict sets' := by
  induction os generalizing sets with
  | nil =>
    obtain ⟨rfl, rfl⟩ := Prod.mk.inj (Except.ok.inj h)
    exact .consistent (by simp)
  | cons o os ih =>
    have here := part o (by simp)
    have part' : ∀ p ∈ os, (s.enter sets o).takesPart p = true :=
      fun p mem => (takesPart_enter s here p).trans (part p (by simp [mem]))
    rw [examine] at h
    split at h
    · next none =>
      refine .cons here (by simp [none]) (ih part' ?_)
      simpa [enter, findsDead, none] using h
    · next r hr =>
      split at h
      · next dead =>
        rw [bind_eq_ok] at h
        obtain ⟨unchanged, compared, h⟩ := h
        have same : ∀ p, (sets.withGcRefs o r.external).takesPart p = sets.takesPart p :=
          fun p => TrackedSets.takesPart_congr (by simp)
        rw [isUnchanged_congr same] at compared
        cases unchanged with
        | true =>
          refine .cons here (fun r' hr' _ => Option.some.inj (hr.symm.trans hr') ▸ compared)
            (ih part' ?_)
          simpa [enter, findsDead, hr, Record.isDead, dead] using h
        | false =>
          obtain ⟨rfl, rfl⟩ := Prod.mk.inj (pure_eq_ok.1 h)
          rw [dead]
          have split : o :: os = [] ++ o :: os := rfl
          exact .inconsistent split hr dead compared
      · next alive =>
        refine .cons here (fun r' hr' dead => ?_) (ih part' ?_)
        · obtain rfl := Option.some.inj (hr.symm.trans hr')
          exact absurd dead alive
        · simpa [enter, findsDead, hr, Record.isDead, alive] using h

/-- An examination has a verdict when every dead object can be compared with its record. -/
theorem exists_examine (part : ∀ o ∈ os, sets.takesPart o = true)
    (comparable : ∀ o ∈ os, ∀ r, s.recordOf o = some r → r.external = 0 →
      ∃ b, s.isUnchanged r sets foreign host = .ok b) :
    ∃ verdict sets', s.examine foreign host sets os = .ok (verdict, sets') := by
  induction os generalizing sets with
  | nil => exact ⟨_, _, rfl⟩
  | cons o os ih =>
    have here := part o (by simp)
    have entered := takesPart_enter s here
    have others : ∃ verdict sets', s.examine foreign host (s.enter sets o) os =
        .ok (verdict, sets') := by
      refine ih (fun p mem => (entered p).trans (part p (by simp [mem]))) fun p mem r hr dead => ?_
      rw [isUnchanged_congr entered]
      exact comparable p (by simp [mem]) r hr dead
    rw [examine]
    split
    · next none => simpa [enter, findsDead, none] using others
    · next r hr =>
      split
      · next dead =>
        have same : ∀ p, (sets.withGcRefs o r.external).takesPart p = sets.takesPart p :=
          fun p => TrackedSets.takesPart_congr (by simp)
        obtain ⟨unchanged, compared⟩ := comparable o (by simp) r hr dead
        simp only [isUnchanged_congr same, compared]
        cases unchanged with
        | true =>
          simpa [enter, findsDead, hr, Record.isDead, dead, bind, Except.bind] using others
        | false => exact ⟨_, _, rfl⟩
      · next alive => simpa [enter, findsDead, hr, Record.isDead, alive] using others

/-! ## Comparing -/

/-- An object differs from its record: in its raw count, because its recorded bridge came alive, or
in its references to objects that take part. -/
def Differs (s : Snapshot) (sets : TrackedSets) (foreign : ρ) (host : HostHeap) (r : Record) :
    Prop :=
  (∃ n, ForeignHeap.refcount foreign r.object = .ok n ∧ n ≠ r.refcount) ∨
    host.reaches r.bridge = .ok true ∨
    ∃ os, ForeignHeap.references foreign r.object = .ok os ∧
      os.filter sets.takesPart ≠ s.objectsAt r.edges

theorem isUnchanged_eq_ok_true : s.isUnchanged r sets foreign host = .ok true ↔
    ForeignHeap.refcount foreign r.object = .ok r.refcount ∧ host.reaches r.bridge = .ok false ∧
      ∃ os, ForeignHeap.references foreign r.object = .ok os ∧
        os.filter sets.takesPart = s.objectsAt r.edges := by
  simp only [isUnchanged, bind_eq_ok]
  constructor
  · rintro ⟨n, hn, h⟩
    split at h
    · simp [pure_eq_ok] at h
    · next same =>
      rw [bind_eq_ok] at h
      obtain ⟨b, hb, h⟩ := h
      cases b with
      | true => simp [pure_eq_ok] at h
      | false =>
        simp only [Bool.false_eq_true, if_false, bind_eq_ok, pure_eq_ok, decide_eq_true_eq] at h
        exact ⟨by simpa [Decidable.not_not.1 same] using hn, hb, h⟩
  · rintro ⟨hn, hb, os, hos, same⟩
    refine ⟨_, hn, ?_⟩
    simp [hb, hos, same, bind, Except.bind, pure, Except.pure]

theorem differs_of_isUnchanged (h : s.isUnchanged r sets foreign host = .ok false) :
    s.Differs sets foreign host r := by
  simp only [isUnchanged, bind_eq_ok] at h
  obtain ⟨n, hn, h⟩ := h
  split at h
  · next ne => exact .inl ⟨n, hn, ne⟩
  · rw [bind_eq_ok] at h
    obtain ⟨b, hb, h⟩ := h
    cases b with
    | true => exact .inr (.inl hb)
    | false =>
      simp only [Bool.false_eq_true, if_false, bind_eq_ok, pure_eq_ok, decide_eq_false_iff_not] at h
      exact .inr (.inr h)

theorem not_differs_of_isUnchanged (h : s.isUnchanged r sets foreign host = .ok true) :
    ¬s.Differs sets foreign host r := by
  obtain ⟨count, bridge, os, references, same⟩ := isUnchanged_eq_ok_true.1 h
  rintro (⟨n, hn, ne⟩ | reached | ⟨os', hos, ne⟩)
  · exact ne (Except.ok.inj (hn.symm.trans count))
  · simp [bridge] at reached
  · obtain rfl := Except.ok.inj (hos.symm.trans references)
    exact ne same

theorem exists_isUnchanged {n : Nat} {b : Bool}
    (count : ForeignHeap.refcount foreign r.object = .ok n) (bridge : host.reaches r.bridge = .ok b)
    (references : ForeignHeap.references foreign r.object = .ok os) :
    ∃ b, s.isUnchanged r sets foreign host = .ok b := by
  by_cases same : n = r.refcount <;> cases b <;>
    simp [isUnchanged, count, bridge, references, same, bind, Except.bind, pure, Except.pure]

/-! ## Judging -/

theorem takesPart_of_mem_inCollection {o : ObjectId} (mem : o ∈ sets.members .inCollection) :
    sets.takesPart o = true :=
  TrackedSets.takesPart_iff.2 ⟨_, mem, by decide⟩

/-- A verdict tracks no object and lets none go. -/
theorem contains_of_judge {verdict : Verdict} {invalidated : Bool}
    (h : s.judge sets foreign host invalidated = .ok (verdict, sets')) :
    sets'.contains o = sets.contains o := by
  unfold judge at h
  split at h
  · obtain ⟨-, rfl⟩ := Prod.mk.inj (Except.ok.inj h)
    simp [TrackedSets.revived]
  · rw [bind_eq_ok] at h
    obtain ⟨⟨verdict', entered⟩, examined, h⟩ := h
    have part : ∀ o ∈ sets.members .inCollection, sets.takesPart o = true :=
      fun o => takesPart_of_mem_inCollection
    cases examined_of_examine part examined <;>
      obtain ⟨-, rfl⟩ := Prod.mk.inj (pure_eq_ok.1 h) <;> simp [TrackedSets.revived]

/-- A consistent pass has compared every dead object with its record, and enters all verdicts. -/
theorem judge_consistent {invalidated : Bool}
    (h : s.judge sets foreign host invalidated = .ok (.consistent, sets')) :
    invalidated = false ∧
      (∀ o ∈ sets.members .inCollection, ∀ r, s.recordOf o = some r → r.external = 0 →
        s.isUnchanged r sets foreign host = .ok true) ∧
      sets' = s.enterAll sets (sets.members .inCollection) := by
  unfold judge at h
  split at h
  · simp at h
  · next valid =>
    rw [bind_eq_ok] at h
    obtain ⟨⟨verdict, entered⟩, examined, h⟩ := h
    have part : ∀ o ∈ sets.members .inCollection, sets.takesPart o = true :=
      fun o => takesPart_of_mem_inCollection
    cases examined_of_examine part examined with
    | consistent unchanged =>
      obtain ⟨-, rfl⟩ := Prod.mk.inj (pure_eq_ok.1 h)
      exact ⟨by simpa using valid, unchanged, rfl⟩
    | inconsistent => simp [pure_eq_ok] at h

/-- What a pass that fails leaves of the tracked sets: every object keeps its role, and whatever is
in collection counts as alive. -/
structure Undone (sets sets' : TrackedSets) : Prop where
  new : sets'.members .new = sets.members .new
  isolated : sets'.members .isolated = sets.members .isolated
  staged : sets'.members .staged = []
  inCollection : ∀ o, o ∈ sets'.members .inCollection ↔ o ∈ sets.members .inCollection
  alive : ∀ o ∈ sets'.members .inCollection, ∃ n, sets'.gcRefs o = some (n + 1)

theorem undone_revived (staged : sets.members .staged = []) {done : List ObjectId}
    (nodup : done.Nodup) (collected : ∀ o ∈ done, o ∈ sets.members .inCollection)
    (same : ∀ r, sets'.members r = (s.enterAll sets done).members r) :
    Undone sets sets'.revived := by
  have entered := s.members_enterAll nodup
    (fun o mem => TrackedSets.contains_of_mem_members (collected o mem)) (by simp [staged])
  have other : ∀ r, r ≠ .inCollection → r ≠ .staged →
      sets'.revived.members r = sets.members r := by
    intro r ne ne'
    rw [TrackedSets.members_revived, if_neg ne, if_neg ne', same, entered, if_neg ne']
    refine List.filter_eq_self.2 fun o mem => ?_
    have apart : o ∉ done := by
      intro early
      have role := TrackedSets.mem_members.1 (collected o early)
      rw [TrackedSets.mem_members.1 mem] at role
      exact ne (Option.some.inj role)
    simp [apart]
  refine ⟨other _ (by decide) (by decide), other _ (by decide) (by decide), ?_, fun o => ?_,
    fun o mem => TrackedSets.gcRefs_revived mem⟩
  · simp [TrackedSets.members_revived]
  · simp only [TrackedSets.members_revived, same, entered, staged, if_true, List.mem_append,
      List.mem_filter, reduceCtorEq, if_false, List.nil_append]
    have := collected o
    grind

/-- A pass fails because an object of its snapshot was lost, or because a dead object differs from
its record. However far the examination came, nothing of it stays. -/
theorem judge_inconsistent {invalidated : Bool} (staged : sets.members .staged = [])
    (h : s.judge sets foreign host invalidated = .ok (.inconsistent, sets')) :
    (invalidated = true ∨ ∃ o ∈ sets.members .inCollection, ∃ r, s.recordOf o = some r ∧
      r.external = 0 ∧ s.Differs sets foreign host r) ∧ Undone sets sets' := by
  unfold judge at h
  split at h
  · next invalid =>
    obtain ⟨-, rfl⟩ := Prod.mk.inj (Except.ok.inj h)
    have entered : ∀ r, sets.members r = (s.enterAll sets []).members r := fun _ => rfl
    exact ⟨.inl invalid, undone_revived staged (by simp) (by simp) entered⟩
  · rw [bind_eq_ok] at h
    obtain ⟨⟨verdict, entered⟩, examined, h⟩ := h
    have part : ∀ o ∈ sets.members .inCollection, sets.takesPart o = true :=
      fun o => takesPart_of_mem_inCollection
    have nodup := sets.nodup_members .inCollection
    cases examined_of_examine part examined with
    | consistent => simp [pure_eq_ok] at h
    | @inconsistent done rest o r split hr dead changed =>
      obtain ⟨-, rfl⟩ := Prod.mk.inj (pure_eq_ok.1 h)
      rw [split] at nodup
      refine ⟨.inr ⟨o, by simp [split], r, hr, dead, differs_of_isUnchanged changed⟩, ?_⟩
      have distinct : done.Nodup := nodup.sublist (List.sublist_append_left ..)
      have early : ∀ p ∈ done, p ∈ sets.members .inCollection :=
        fun p mem => split ▸ List.mem_append_left _ mem
      exact undone_revived staged distinct early fun r => TrackedSets.members_withGcRefs ..

/-- A pass is judged when every dead object can be compared with its record. -/
theorem exists_judge (invalidated : Bool)
    (comparable : ∀ o ∈ sets.members .inCollection, ∀ r, s.recordOf o = some r →
      r.external = 0 → ∃ b, s.isUnchanged r sets foreign host = .ok b) :
    ∃ verdict sets', s.judge sets foreign host invalidated = .ok (verdict, sets') := by
  unfold judge
  split
  · exact ⟨_, _, rfl⟩
  · obtain ⟨verdict, sets', examined⟩ :=
      exists_examine (fun o => takesPart_of_mem_inCollection) comparable
    rw [examined]
    cases verdict <;> exact ⟨_, _, rfl⟩

end Snapshot

end CycleCollector
