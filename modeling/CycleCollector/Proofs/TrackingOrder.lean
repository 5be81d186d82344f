import CycleCollector.Proofs.Agreement
/-!
# The order of tracking and the pace of marking

A collector that has just started to track some objects goes through its first pass. It makes no
difference in which order it was told about the objects, how many scans it may take in a step, and
whether the host heap traces at once or when the step is over. Nothing is asked of the counts, the
finalizers or the marks that the host heap may have from before; a pass that cannot start for the
one order cannot start for the other.

## Main definitions

* `Collector.Tracks`: a collector before and after it was told about some objects.
* `World.tracking`: a collector that was told about some objects and nothing else.

## Main statements

* `World.collect_agrees`: two such collectors agree.
-/

namespace CycleCollector

namespace Collector

variable {c c' : Collector} {os : List ObjectId}

/-- How a collector that was told about some objects differs from the one before. -/
structure Tracks (c c' : Collector) (os : List ObjectId) : Prop where
  orderly : c.Orderly → c'.Orderly
  phase : c'.phase = c.phase
  options : c'.options = c.options
  members : ∀ r o, o ∈ c'.sets.members r ↔
    o ∈ c.sets.members r ∨ r = .new ∧ o ∈ os ∧ c.sets.contains o = false
  counts : ∀ o, c'.sets.gcRefs o =
    if o ∈ os ∧ c.sets.contains o = false then some 1 else c.sets.gcRefs o

/-- A request to track an object is refused if it is tracked already. -/
theorem resolve_track (c : Collector) (o : ObjectId) :
    c.sets.contains o = true ∧ (c.resolve (c.track o)).2 = c ∨
      ∃ sets, c.sets.insert? o .new = some sets ∧ c.track o = .ok { c with sets } ∧
        (c.resolve (c.track o)).2 = { c with sets } := by
  cases inserted : c.sets.insert? o .new with
  | none => exact .inl ⟨TrackedSets.insert?_eq_none.1 inserted, by simp [track, inserted, resolve]⟩
  | some sets => exact .inr ⟨sets, rfl, by simp [track, inserted, resolve]⟩

theorem tracks_trackAll (c : Collector) (os : List ObjectId) : Tracks c (c.trackAll os).2 os := by
  induction os generalizing c with
  | nil => exact ⟨id, rfl, rfl, by simp [trackAll], by simp [trackAll]⟩
  | cons o os ih =>
    have later := ih (c.resolve (c.track o)).2
    rcases resolve_track c o with ⟨old, same⟩ | ⟨sets, inserted, granted, same⟩
    · rw [same] at later
      simp only [trackAll, same]
      refine ⟨later.orderly, later.phase, later.options, fun r p => ?_, fun p => ?_⟩
      · rw [later.members]
        grind
      · rw [later.counts]
        grind
    · rw [same] at later
      simp only [trackAll, same]
      have members := TrackedSets.members_insert? inserted
      have counts := TrackedSets.gcRefs_insert? inserted
      have fresh := TrackedSets.contains_of_insert? inserted
      have contains : ∀ p, sets.contains p = true ↔ p = o ∨ c.sets.contains p = true := by
        intro p
        rw [← TrackedSets.isSome_gcRefs, ← TrackedSets.isSome_gcRefs, counts]
        split <;> simp [*]
      refine ⟨fun orderly => later.orderly (orderly.track granted), later.phase, later.options,
        fun r p => ?_, fun p => ?_⟩
      · rw [later.members, members]
        grind
      · rw [later.counts, counts]
        grind

/-- What is tracked in the end does not depend on anything but what is tracked before. -/
theorem sets_trackAll (c c' : Collector) (same : c'.sets = c.sets) (os : List ObjectId) :
    (c'.trackAll os).2.sets = (c.trackAll os).2.sets := by
  induction os generalizing c c' with
  | nil => exact same
  | cons o os ih =>
    have step : (c'.resolve (c'.track o)).2.sets = (c.resolve (c.track o)).2.sets := by
      rcases resolve_track c o with ⟨old, stays⟩ | ⟨sets, inserted, -, grows⟩
      · rcases resolve_track c' o with ⟨-, stays'⟩ | ⟨_, inserted', -⟩
        · rw [stays, stays', same]
        · rw [same, TrackedSets.insert?_eq_none.2 old] at inserted'
          exact nomatch inserted'
      · rcases resolve_track c' o with ⟨old', -⟩ | ⟨sets', inserted', -, grows'⟩
        · rw [same, TrackedSets.contains_of_insert? inserted] at old'
          exact nomatch old'
        · rw [grows, grows']
          exact Option.some.inj (inserted'.symm.trans (same ▸ inserted))
    exact ih _ _ step

end Collector

namespace World

variable {foreign : Arena} {host : HostHeap} {options options₁ options₂ : Options}
  {os os₁ os₂ : List ObjectId} {o : ObjectId}

def tracking (foreign : Arena) (host : HostHeap) (options : Options) (os : List ObjectId) :
    World Arena where
  collector := (Collector.trackAll { options } os).2
  foreign
  host

theorem tracks_tracking (foreign : Arena) (host : HostHeap) (options : Options)
    (os : List ObjectId) :
    Collector.Tracks { options } (tracking foreign host options os).collector os :=
  Collector.tracks_trackAll { options } os

theorem contains_tracking :
    (tracking foreign host options os).collector.sets.contains o = true ↔ o ∈ os := by
  have members := (tracks_tracking foreign host options os).members
  rw [TrackedSets.contains_iff_exists_mem]
  simp only [members]
  constructor
  · rintro ⟨r, old | ⟨-, mem, -⟩⟩
    · simp at old
    · exact mem
  · exact fun mem => ⟨.new, .inr ⟨rfl, mem, rfl⟩⟩

theorem prepareSets_tracking (off : options.untrackAtomicContainers = false) :
    (tracking foreign host options os).prepareSets = .ok (tracking foreign host options os) := by
  unfold prepareSets
  rw [(tracks_tracking foreign host options os).options, if_neg (by simp [off])]

theorem grounded_tracking (closed : foreign.Closed)
    (unreleased : ∀ o ∈ os, foreign.isReleased o = .ok false) :
    (tracking foreign host options os).Grounded where
  tracked o mem := unreleased o (contains_tracking.1 mem)
  closed := closed

/-- Collectors that were told about the same objects are alike, whatever the order. -/
theorem alike_tracking (same : ∀ o, o ∈ os₂ ↔ o ∈ os₁) :
    Alike (tracking foreign host options₁ os₁) (tracking foreign host options₂ os₂) := by
  have tracks₁ := tracks_tracking foreign host options₁ os₁
  have tracks₂ := tracks_tracking foreign host options₂ os₂
  refine ⟨rfl, .refl _, .refl _, .refl _, fun r o => ?_, fun o => ?_, rfl, fun _ => .rfl⟩
  · rw [tracks₁.members, tracks₂.members, same]
  · rw [tracks₁.counts, tracks₂.counts]
    simp only [same]

/-- Let two collectors be told about the same unreleased objects, in any two orders, and look for
cycles at any two paces. An undisturbed pass over the same heaps has a fault with the one if and
only if it has one with the other. Otherwise it ends with the same outcome and in alike worlds: the
same objects are released, isolated, in collection, reported and scheduled, all counts and
references are the same, and so are the flags in the host heap. If also the orders were the same,
the releases are in the same order. -/
theorem collect_agrees (closed : foreign.Closed)
    (bridges : ∀ o h, foreign.bridge o = .ok (some h) → h.index < host.objects.size)
    (linked : host.Linked) (unreleased : ∀ o ∈ os₁, foreign.isReleased o = .ok false)
    (same : ∀ o, o ∈ os₂ ↔ o ∈ os₁)
    (on₁ : options₁.cycleDetection = true) (on₂ : options₂.cycleDetection = true)
    (off₁ : options₁.untrackAtomicContainers = false)
    (off₂ : options₂.untrackAtomicContainers = false) :
    ((∃ fault, (tracking foreign host options₁ os₁).collect = .error fault) ↔
      ∃ fault, (tracking foreign host options₂ os₂).collect = .error fault) ∧
    ∀ n₁ w₁ n₂ w₂, (tracking foreign host options₁ os₁).collect = .ok (n₁, w₁) →
      (tracking foreign host options₂ os₂).collect = .ok (n₂, w₂) →
      Alike w₁ w₂ ∧ w₂.collector.lastOutcome = w₁.collector.lastOutcome ∧
        (os₂ = os₁ → w₂.foreign.released = w₁.foreign.released) := by
  have tracks₁ := tracks_tracking foreign host options₁ os₁
  have tracks₂ := tracks_tracking foreign host options₂ os₂
  have orderly₁ := tracks₁.orderly (.start options₁)
  have orderly₂ := tracks₂.orderly (.start options₂)
  have cycles₁ := (congrArg Options.cycleDetection tracks₁.options).trans on₁
  have cycles₂ := (congrArg Options.cycleDetection tracks₂.options).trans on₂
  have alike : Alike (tracking foreign host options₁ os₁) (tracking foreign host options₂ os₂) :=
    alike_tracking same
  constructor
  · have unreleased₂ : ∀ o ∈ os₂, foreign.isReleased o = .ok false :=
      fun o mem => unreleased o ((same o).1 mem)
    have iff₁ := exists_collect_iff orderly₁ tracks₁.phase cycles₁ (prepareSets_tracking off₁)
      (grounded_tracking closed unreleased) linked bridges
    have iff₂ := exists_collect_iff orderly₂ tracks₂.phase cycles₂ (prepareSets_tracking off₂)
      (grounded_tracking closed unreleased₂) linked bridges
    have both := iff₁.trans ((Iff.intro alike.covered alike.symm.covered).trans iff₂.symm)
    have fails : ∀ {x : Except Fault (Nat × World Arena)}, (∃ fault, x = .error fault) ↔
        ¬∃ n w, x = .ok (n, w) := by
      rintro (fault | ⟨n, w⟩) <;> simp
    rw [fails, fails, both]
  · intro n₁ w₁ n₂ w₂ collected₁ collected₂
    rcases passes_of_collect orderly₁ tracks₁.phase collected₁ with
      ⟨off, -⟩ | ⟨-, v, s₀, s, v₁, passes₁⟩
    · simp [cycles₁] at off
    rcases passes_of_collect orderly₂ tracks₂.phase collected₂ with
      ⟨off, -⟩ | ⟨-, u, t₀, t, u₁, passes₂⟩
    · simp [cycles₂] at off
    obtain rfl := Except.ok.inj ((prepareSets_tracking off₁).symm.trans passes₁.prepared)
    obtain rfl := Except.ok.inj ((prepareSets_tracking off₂).symm.trans passes₂.prepared)
    obtain ⟨ended, outcome, ordered⟩ := alike.agree passes₁ passes₂
    refine ⟨ended, outcome, ?_⟩
    rintro rfl
    have sets : (Collector.trackAll { options := options₂ } os₂).2.sets =
        (Collector.trackAll { options := options₁ } os₂).2.sets :=
      Collector.sets_trackAll { options := options₁ } { options := options₂ } rfl os₂
    refine congrArg Arena.released (ordered rfl ?_)
    simp only [candidates, tracking, sets]

/-- The program holds the first object, whose counterpart points to that of the second. The third
and the fourth refer to each other. -/
def pair : Arena where
  cells := #[
    { refcount := Refcount.hostBias + 1, bridge := some ⟨0⟩ },
    { refcount := Refcount.hostBias, bridge := some ⟨1⟩ },
    { refcount := 1, references := [⟨3⟩] },
    { refcount := 1, references := [⟨2⟩] }]

/-- One collector was told about the objects in order and marks eagerly. The other was told about
them the other way round, scans once in a step, and reaches the second object only after a trace.
They release the same two objects, in different orders. -/
theorem collect_agrees_pair :
    let host : HostHeap := { objects := #[{ edges := [⟨1⟩] }, {}] }
    let first := tracking pair host { untrackAtomicContainers := false } [⟨0⟩, ⟨1⟩, ⟨2⟩, ⟨3⟩]
    let second := tracking pair host
      { scansPerStep := some 1, eagerHostTrace := false, untrackAtomicContainers := false }
      [⟨3⟩, ⟨2⟩, ⟨1⟩, ⟨0⟩]
    ∃ n₁ w₁ n₂ w₂, first.collect = .ok (n₁, w₁) ∧ second.collect = .ok (n₂, w₂) ∧ Alike w₁ w₂ ∧
      w₁.foreign.released = [⟨2⟩, ⟨3⟩] ∧ w₂.foreign.released = [⟨3⟩, ⟨2⟩] := by
  intro host first second
  have bridges : ∀ o h, pair.bridge o = .ok (some h) → h.index < host.objects.size := by
    have valid : ∀ i : Fin pair.cells.size, ∀ h ∈ pair.cells[i].bridge,
        h.index < host.objects.size := by decide
    intro o h bridged
    obtain ⟨c, hc, eq⟩ := map_eq_ok.1 bridged
    exact (Arena.forall_cell (P := fun _ c => ∀ h ∈ c.bridge, h.index < host.objects.size)).2 valid
      o c hc h eq
  have linked : host.Linked := by
    refine ⟨?_, nofun, nofun⟩
    rintro h k ⟨x, hx, mem⟩
    have valid : ∀ i : Fin host.objects.size, ∀ k ∈ host.objects[i].edges,
        k.index < host.objects.size := by decide
    obtain ⟨bound, rfl⟩ := Array.getElem?_eq_some_iff.1 hx
    exact valid ⟨h.index, bound⟩ k mem
  have ended : (fun x => x.2.foreign.released) <$> first.collect = .ok [⟨2⟩, ⟨3⟩] := by
    decide +kernel
  have ended' : (fun x => x.2.foreign.released) <$> second.collect = .ok [⟨3⟩, ⟨2⟩] := by
    decide +kernel
  obtain ⟨⟨n₁, w₁⟩, collected, released⟩ := map_eq_ok.1 ended
  obtain ⟨⟨n₂, w₂⟩, collected', released'⟩ := map_eq_ok.1 ended'
  have unreleased : ∀ o ∈ [⟨0⟩, ⟨1⟩, ⟨2⟩, ⟨3⟩], pair.isReleased o = .ok false := by decide
  have same : ∀ o : ObjectId, o ∈ [⟨3⟩, ⟨2⟩, ⟨1⟩, ⟨0⟩] ↔ o ∈ [⟨0⟩, ⟨1⟩, ⟨2⟩, ⟨3⟩] := by grind
  obtain ⟨alike, -⟩ := (collect_agrees (by decide) bridges linked unreleased same (by rfl) (by rfl)
    (by rfl) (by rfl)).2 n₁ w₁ n₂ w₂ collected collected'
  exact ⟨n₁, w₁, n₂, w₂, collected, collected', alike, released, released'⟩

end World

end CycleCollector
