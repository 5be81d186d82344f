import CycleCollector.Proofs.Draining
import CycleCollector.Proofs.Resurrection
import CycleCollector.Proofs.WholePass
/-!
# What is still to be traced when a pass ends

A pass is judged by the marks that the host heap has set. If its worklist is not empty then, say
because of a write barrier since the last trace, some bridges are only about to come alive: the
*awaited* ones, to which a path of unmarked objects leads from the worklist. The end of a pass does
not look at the worklist. Hence it takes an awaited bridge for a dead one; tracing first would have
made the pass fail. Where no dead object of the snapshot has an awaited bridge, tracing first makes
no difference.

## Main definitions

* `World.Awaited`: whether what the next trace marks concerns a dead object.

## Main statements

* `World.disposeStaged_host`, `World.finishPass_host`: the end of a pass asks the host heap for the
  recorded bridges of dead objects, and nothing else.
* `World.finishPass_writeBarrier`: so it does not depend on write barriers.
* `World.released_drained_iff`: what tracing first would change.
-/

namespace CycleCollector

namespace HostHeap

variable {g g' : HostHeap} {h : HostRef} {bridge : Option HostRef}

/-! ## What a trace is going to answer -/

/-- The answer about a bridge stays the same through a trace unless the bridge is awaited. -/
theorem reaches_drain (drained : g.drain = .ok g') (apart : ∀ h ∈ bridge, ¬g.Awaits h) :
    g'.reaches bridge = g.reaches bridge := by
  have same := (onward_drain drained).same
  cases bridge with
  | none => rfl
  | some h =>
    have size := size_of_map_unmarked same
    cases hx : g.objects[h.index]? with
    | none =>
      have hx' : g'.objects[h.index]? = none := by
        rw [Array.getElem?_eq_none_iff] at hx ⊢
        omega
      simp only [reaches, isReachable, object, hx, hx', size]
    | some x =>
      obtain ⟨x', hx', eq⟩ := exists_of_map_unmarked same hx
      have visited : x'.flags.visited = x.flags.visited := by
        have marked := marked_drain_iff (h := h) drained
        simp only [Marked, hx, hx', apart h rfl, or_false, Option.some.injEq, exists_eq_left']
          at marked
        rwa [Bool.eq_iff_iff]
      have prebuilt : x'.flags.noHeapPtrs = x.flags.noHeapPtrs := congrArg (·.flags.noHeapPtrs) eq
      have flags : x'.flags = x.flags := by
        rw [HostFlags.mk.injEq]
        exact ⟨visited, prebuilt⟩
      simp only [reaches, isReachable, object, hx, hx', flags, bind, Except.bind]

/-- A trace brings an awaited bridge alive. -/
theorem reaches_drain_of_awaits (drained : g.drain = .ok g') (awaits : g.Awaits h) :
    g'.reaches (some h) = .ok true :=
  reaches_eq_ok_true.2 ⟨h, rfl, .inl ((marked_drain_iff drained).2 (.inr awaits))⟩

theorem objects_foldl_writeBarrier (g : HostHeap) (hs : List HostRef) :
    (hs.foldl writeBarrier g).objects = g.objects := by
  induction hs generalizing g with
  | nil => rfl
  | cons h hs ih => exact ih (g.writeBarrier h)

/-- A trace leaves no question unanswered. -/
theorem exists_reaches_drain (drained : g.drain = .ok g') (answer : ∃ b, g.reaches bridge = .ok b) :
    ∃ b, g'.reaches bridge = .ok b := by
  by_cases awaited : ∃ h ∈ bridge, g.Awaits h
  · obtain ⟨h, rfl, awaits⟩ := awaited
    exact ⟨true, reaches_drain_of_awaits drained awaits⟩
  · rw [reaches_drain drained fun h here awaits => awaited ⟨h, here, awaits⟩]
    exact answer

end HostHeap

/-! ## The verdict asks about recorded bridges -/

namespace Snapshot

variable {ρ : Type} [ForeignHeap ρ] {s : Snapshot} {sets : TrackedSets} {foreign : ρ}
  {host host' : HostHeap} {os : List ObjectId} {r : Record}

theorem isUnchanged_host (same : host'.reaches r.bridge = host.reaches r.bridge) :
    s.isUnchanged r sets foreign host' = s.isUnchanged r sets foreign host := by
  simp only [isUnchanged, same]

theorem examine_host (same : ∀ o ∈ os, ∀ r, s.recordOf o = some r → r.external = 0 →
      host'.reaches r.bridge = host.reaches r.bridge) (sets : TrackedSets) :
    s.examine foreign host' sets os = s.examine foreign host sets os := by
  induction os generalizing sets with
  | nil => rfl
  | cons o os ih =>
    have others := ih fun p mem => same p (by simp [mem])
    unfold examine
    cases found : s.recordOf o with
    | none => exact others _
    | some r =>
      simp only [others]
      split
      · next dead => rw [isUnchanged_host (same o (by simp) r found dead)]
      · rfl

/-- Two host heaps give the same verdict if they agree on the recorded bridges of dead objects. -/
theorem judge_host (same : ∀ r ∈ s.records, r.external = 0 →
      host'.reaches r.bridge = host.reaches r.bridge) (invalidated : Bool) :
    s.judge sets foreign host' invalidated = s.judge sets foreign host invalidated := by
  have examined : s.examine foreign host' sets (sets.members .inCollection) =
      s.examine foreign host sets (sets.members .inCollection) :=
    examine_host (fun o _ r found => same r (Array.mem_of_find?_eq_some found)) sets
  simp only [judge, examined]

end Snapshot

namespace World

variable {ρ : Type} [ForeignHeap ρ] {w w' w₁ : World ρ} {host : HostHeap} {evidence : Evidence}
  {n : Nat} {os : List ObjectId} {outcome : Outcome}

/-! ## Disposing does not ask the host heap -/

theorem heldBridges_congr (foreign : w'.foreign = w.foreign)
    (sets : w'.collector.sets = w.collector.sets) (evidence : Evidence) (os : List ObjectId) :
    w'.heldBridges evidence os = w.heldBridges evidence os := by
  have held (o : ObjectId) : w'.isHeld o evidence = w.isHeld o evidence := by
    cases evidence with
    | cyclicCount => rw [isHeld, isHeld, sets]
    | rawCount => rw [isHeld, isHeld, foreign]
  induction os with
  | nil => rfl
  | cons o os ih => simp only [heldBridges, ih, held, foreign]

theorem keepLegacy_host (done : w.keepLegacy = .ok (n, w')) (host : HostHeap) :
    ({ w with host } : World ρ).keepLegacy = .ok (n, { w' with host }) := by
  simp only [keepLegacy, bind_eq_ok, pure_eq_ok] at done ⊢
  obtain ⟨legacy, found, reached, searched, eq⟩ := done
  obtain ⟨rfl, rfl⟩ := Prod.mk.inj eq
  exact ⟨legacy, found, reached, searched, rfl⟩

theorem isolateFinalizable_host (done : w.isolateFinalizable = .ok (n, w')) (host : HostHeap) :
    ({ w with host } : World ρ).isolateFinalizable = .ok (n, { w' with host }) := by
  simp only [isolateFinalizable, bind_eq_ok] at done ⊢
  obtain ⟨finalizable, found, done⟩ := done
  refine ⟨finalizable, found, ?_⟩
  split at done <;>
    obtain ⟨rfl, rfl⟩ := Prod.mk.inj (pure_eq_ok.1 done) <;>
    simp [*, withSets, count, pure, Except.pure]

theorem markBorder_host (done : w.markBorder evidence = .ok w') : ∃ bridges, ∀ host,
    ({ w with host } : World ρ).markBorder evidence =
      .ok { w' with host := host.promoteAll bridges } := by
  simp only [markBorder, bind_eq_ok, pure_eq_ok] at done
  obtain ⟨fresh, hfresh, collected, hcollected, isolated, hisolated, rfl⟩ := done
  refine ⟨fresh ++ collected ++ isolated, fun host => ?_⟩
  have same : ∀ evidence os, ({ w with host } : World ρ).heldBridges evidence os =
      w.heldBridges evidence os := heldBridges_congr rfl rfl
  simp only [markBorder, same, bind_eq_ok, pure_eq_ok]
  exact ⟨fresh, hfresh, collected, hcollected, isolated, hisolated, rfl⟩

theorem releaseStaged_host (done : w.releaseStaged = .ok (n, w')) (host : HostHeap) :
    ({ w with host } : World ρ).releaseStaged = .ok (n, { w' with host }) := by
  simp only [releaseStaged, bind_eq_ok, pure_eq_ok] at done ⊢
  obtain ⟨foreign, released, eq⟩ := done
  obtain ⟨rfl, rfl⟩ := Prod.mk.inj eq
  exact ⟨foreign, released, rfl⟩

/-- The host heap has no say in what becomes of the staged objects. -/
theorem disposeStaged_host (done : w.disposeStaged = .ok (outcome, w')) : ∃ bridges, ∀ host,
    ({ w with host } : World ρ).disposeStaged =
      .ok (outcome, { w' with host := host.promoteAll bridges }) := by
  obtain ⟨legacy, w₁, isolated, w₂, w₃, released, kept, isolates, marked, releases, rfl⟩ :=
    disposeStaged_eq_ok.1 done
  obtain ⟨bridges, marks⟩ := markBorder_host marked
  exact ⟨bridges, fun host => disposeStaged_eq_ok.2 ⟨legacy, _, isolated, _, _, released,
    keepLegacy_host kept host, isolateFinalizable_host isolates host, marks host,
    releaseStaged_host releases _, rfl⟩⟩

/-- The end of a pass asks the host heap for the recorded bridges of dead objects, and nothing
else. -/
theorem finishPass_host (done : w.finishPass = .ok w')
    (same : ∀ s, w.collector.snapshot? = some s → ∀ r ∈ s.records, r.external = 0 →
      host.reaches r.bridge = w.host.reaches r.bridge) :
    ∃ host', ({ w with host } : World ρ).finishPass = .ok { w' with host := host' } := by
  obtain ⟨s, verdict, sets, outcome, v, taken, judged, disposed, rfl⟩ := finishPass_eq_ok done
  obtain ⟨bridges, disposes⟩ := disposeStaged_host disposed
  have judged' : s.judge w.collector.sets w.foreign host w.collector.invalidated =
      .ok (verdict, sets) := (Snapshot.judge_host (same s taken) _).trans judged
  exact ⟨host.promoteAll bridges,
    finishPass_of_judge (w := { w with host }) taken judged' (disposes host)⟩

/-! ## Judging before and after a trace -/

/-- The recorded bridge of some dead object is about to come alive. -/
def Awaited (w : World ρ) : Prop :=
  ∃ s, w.collector.snapshot? = some s ∧
    ∃ r ∈ s.records, r.external = 0 ∧ ∃ h ∈ r.bridge, w.host.Awaits h

theorem step_of_marked (marked : w.collector.phase = .marked) :
    w.step = (true, ·) <$> w.finishPass := by
  simp only [step, marked]

/-- Where no dead object has an awaited bridge, the pass ends as it would after a trace. -/
theorem finishPass_drained (done : w.finishPass = .ok w') (drained : w.host.drain = .ok host)
    (apart : ¬w.Awaited) :
    ∃ host', ({ w with host } : World ρ).finishPass = .ok { w' with host := host' } :=
  finishPass_host done fun s taken r mem dead => HostHeap.reaches_drain drained
    fun h here awaits => apart ⟨s, taken, r, mem, dead, h, here, awaits⟩

/-- After a trace, a dead object whose bridge was awaited has changed. -/
theorem changed_of_awaited (awaited : w.Awaited) (drained : w.host.drain = .ok host) :
    ({ w with host } : World ρ).Changed := by
  obtain ⟨s, taken, r, mem, dead, h, here, awaits⟩ := awaited
  refine ⟨s, taken, r, mem, dead, .inr (.inl ?_)⟩
  rw [Option.mem_def.1 here]
  exact HostHeap.reaches_drain_of_awaits drained awaits

theorem Answers.drained (answers : w.Answers) (drained : w.host.drain = .ok host) :
    ({ w with host } : World ρ).Answers where
  foreign := answers.foreign
  host s taken r mem := HostHeap.exists_reaches_drain drained (answers.host s taken r mem)

/-- Write barriers since the end of marking do not count: nothing that a pass does when it ends
depends on them. -/
theorem finishPass_writeBarrier (done : w.finishPass = .ok w') (barriers : List HostRef) :
    ∃ host, ({ w with host := barriers.foldl HostHeap.writeBarrier w.host } : World ρ).finishPass =
      .ok { w' with host } := by
  have objects := HostHeap.objects_foldl_writeBarrier w.host barriers
  exact finishPass_host done fun _ _ r _ _ => HostHeap.reaches_congr objects r.bridge

/-- The end of a pass compared with its end after a trace. If the recorded bridge of a dead object
is awaited, the trace makes the pass fail, and nothing is released. Otherwise the trace makes no
difference beyond the host heap. So both release the same objects just if no such bridge is
awaited, or nothing is released anyway. -/
theorem released_drained_iff {options : Options} {foreign : Arena} {before : HostHeap}
    {actions : List (Action Arena)} {w w₁ : World Arena} {finished : Bool}
    (reached : run { collector := { options }, foreign, host := before } actions = .ok w)
    (marked : w.collector.phase = .marked) (answers : w.Answers)
    (drained : w.host.drain = .ok host) (stepped : w.step = .ok (finished, w₁)) :
    ∃ w₂, ({ w with host } : World Arena).step = .ok (true, w₂) ∧
      (w.Awaited → w₂.collector.lastOutcome = some .resurrected ∧ w₂.foreign = w.foreign) ∧
      (¬w.Awaited → ∃ host', w₂ = { w₁ with host := host' }) ∧
      (w₂.foreign.released = w₁.foreign.released ↔
        ¬w.Awaited ∨ w₁.foreign.released = w.foreign.released) := by
  have orderly : w.collector.Orderly := orderly_of_run reached (.start options)
  rw [step_of_marked marked] at stepped
  obtain ⟨_, ended, eq⟩ := map_eq_ok.1 stepped
  obtain rfl := (Prod.mk.inj eq).2
  have step : ({ w with host } : World Arena).step = (true, ·) <$> finishPass { w with host } :=
    step_of_marked marked
  by_cases awaited : w.Awaited
  · have changed := changed_of_awaited awaited drained
    obtain ⟨s, taken⟩ : ∃ s, w.collector.snapshot? = some s := awaited.imp fun _ => And.left
    obtain ⟨w₂, done⟩ := exists_finishPass_of_changed (w := { w with host }) orderly
      (answers.drained drained) taken (.inr changed)
    obtain ⟨fails, spares⟩ := resurrects_of_finishPass (w := { w with host }) orderly done
    have failed := fails.2 (.inr changed)
    have same : w₂.foreign = w.foreign := (spares failed).foreign
    exact ⟨w₂, step.trans (map_eq_ok.2 ⟨w₂, done, rfl⟩), fun _ => ⟨failed, same⟩,
      fun apart => absurd awaited apart, by simp [awaited, same, eq_comm]⟩
  · obtain ⟨host', done⟩ := finishPass_drained ended drained awaited
    exact ⟨_, step.trans (map_eq_ok.2 ⟨_, done, rfl⟩), fun here => absurd here awaited,
      fun _ => ⟨host', rfl⟩, by simp [awaited]⟩

def linkedLoop : World Arena where
  foreign :=
    { cells := #[{ refcount := Refcount.hostBias + 1, references := [⟨0⟩], bridge := some ⟨0⟩ }] }
  host := { objects := #[{}] }

/-- The program stores the counterpart into a marked host object when the object is already taken
for dead. The pass ends before the host heap traces it, and releases the object; had the trace come
first, it would have stayed. -/
theorem released_drained_barrier :
    let w := linkedLoop.after [.track ⟨0⟩, .step, .step, .host (linkedLoop.host.writeBarrier ⟨0⟩)]
    let host := { linkedLoop.host with objects := #[HostObject.marked {}] }
    w.host.drain = .ok host ∧
      (∃ w₁, w.step = .ok (true, w₁) ∧ w₁.foreign.released = [⟨0⟩]) ∧
      ∃ w₂, ({ w with host } : World Arena).step = .ok (true, w₂) ∧
        w₂.collector.lastOutcome = some .resurrected ∧ w₂.foreign.released = [] := by
  intro w host
  have reached : linkedLoop.run [.track ⟨0⟩, .step, .step,
      .host (linkedLoop.host.writeBarrier ⟨0⟩)] = .ok w := by decide +kernel
  let records : Array Snapshot.Record := #[
    { object := ⟨0⟩, refcount := Refcount.hostBias + 1, external := 0, bridge := some ⟨0⟩,
      bridgeRooted := false, edges := [0] }]
  have taken : w.collector.snapshot? = some ⟨records⟩ := by decide +kernel
  have marked : w.collector.phase = .marked := by decide +kernel
  have drained : w.host.drain = .ok host := by decide +kernel
  have stepped : w.step = .ok (true, w.after [.step]) := by decide +kernel
  have released : (w.after [.step]).foreign.released = [⟨0⟩] := by decide +kernel
  have awaited : w.Awaited := by
    refine ⟨_, taken, _, Array.mem_singleton.2 rfl, rfl, ⟨0⟩, rfl, .listed (by decide +kernel) ?_⟩
    rintro ⟨x, hx, visited⟩
    have found : w.host.objects[0]? = some ⟨{}, []⟩ := by decide +kernel
    obtain rfl := Option.some.inj (found.symm.trans hx)
    exact nomatch visited
  have answers : w.Answers := by
    refine ⟨fun o tracked => ?_, fun s taken' r mem => ?_⟩
    · have entries : w.collector.sets.entries = [⟨⟨0⟩, .inCollection, 1⟩] := by decide +kernel
      obtain ⟨e, mem, rfl⟩ := TrackedSets.contains_iff.1 tracked
      rw [entries, List.mem_singleton] at mem
      subst mem
      have cell : w.foreign.cell ⟨0⟩ = linkedLoop.foreign.cell ⟨0⟩ := by decide +kernel
      exact ⟨⟨_, map_eq_ok.2 ⟨_, cell, rfl⟩⟩, ⟨_, map_eq_ok.2 ⟨_, cell, rfl⟩⟩,
        _, map_eq_ok.2 ⟨_, cell, rfl⟩⟩
    · obtain rfl := Option.some.inj (taken.symm.trans taken')
      obtain rfl := Array.mem_singleton.1 mem
      exact ⟨false, by decide +kernel⟩
  obtain ⟨w₂, stepped₂, fails, -, -⟩ := released_drained_iff reached marked answers drained stepped
  obtain ⟨outcome, same⟩ := fails awaited
  refine ⟨drained, ⟨_, stepped, released⟩, w₂, stepped₂, outcome, ?_⟩
  rw [same]
  decide +kernel

end World

end CycleCollector
