import CycleCollector.Proofs.Accounting
import CycleCollector.Proofs.Tracing
import CycleCollector.World.Marking
/-!
# Marking and its fixed point

A visit leaves everything alone, or it finds one record alive: held from outside, or bridged to a
host object that is known to be alive. What every visit keeps is kept by scans and runs of scans,
and a run that stops at its fixed point leaves no record that a further visit would find.

## Main definitions

* `Marking.Visits`: what one visit can do.
* `Snapshot.Quiet`: a scan would find nothing.
* `Marking.Course`: how far liveness has come since marking started.
* `Marking.Closed`, `Marking.Within`: a bound on how far it can come.
* `Marking.Spreads`: both together.
-/

namespace CycleCollector

def Snapshot.Quiet (s : Snapshot) (host : HostHeap) : Prop :=
  ∀ r ∈ s.records, r.processed = true ∨ r.external = 0 ∧ host.reaches r.bridge = .ok false

theorem Snapshot.Record.support_eq_ok (r : Record) {host : HostHeap} {external : Nat} :
    r.support host = .ok external ↔ 0 < r.external ∧ external = r.external ∨
      r.external = 0 ∧ ∃ b, host.reaches r.bridge = .ok b ∧ external = b.toNat := by
  unfold support
  split
  · next positive => grind
  · next none =>
    rw [bind_eq_ok]
    simp only [pure_eq_ok]
    grind

namespace Marking

variable {eager : Bool} {limit : Option Nat} {m m' : Marking} {i : Nat} {progress : Progress}

/-- What a visit of position `i` can do. -/
inductive Visits (eager : Bool) (m : Marking) (i : Nat) : Marking → Prop
  | quiet : (∀ r, m.snapshot.records[i]? = some r →
      r.processed = true ∨ r.external = 0 ∧ m.host.reaches r.bridge = .ok false) →
      Visits eager m i m
  | finds {r : Snapshot.Record} {external : Nat} {host : HostHeap} :
      m.snapshot.records[i]? = some r → r.processed = false → 0 < external →
      (external = r.external ∨ m.host.reaches r.bridge = .ok true) →
      m.host.receive eager r.bridge = .ok host →
      Visits eager m i { m with
        snapshot := m.snapshot.settle i r external
        host
        promotions := m.promotions + r.bridge.isSome.toNat
        found := m.found + 1 }

theorem visits_of_visit (h : m.visit eager i = .ok m') : Visits eager m i m' := by
  unfold visit at h
  split at h
  · next none =>
    obtain rfl := Except.ok.inj h
    exact .quiet (by simp [none])
  · next r hr =>
    split at h
    · next processed =>
      obtain rfl := Except.ok.inj h
      exact .quiet fun q hq => .inl (Option.some.inj (hr.symm.trans hq) ▸ processed)
    · next unprocessed =>
      rw [bind_eq_ok] at h
      obtain ⟨external, support, h⟩ := h
      have evidence := r.support_eq_ok.1 support
      split at h
      · next zero =>
        obtain rfl := pure_eq_ok.1 h
        refine .quiet fun q hq => .inr ?_
        obtain rfl := Option.some.inj (hr.symm.trans hq)
        rcases evidence with ⟨positive, rfl⟩ | ⟨none, b, reaches, eq⟩
        · omega
        · cases b with
          | false => exact ⟨none, reaches⟩
          | true => simp [eq] at zero
      · next positive =>
        simp only [bind_eq_ok, pure_eq_ok] at h
        obtain ⟨host, received, rfl⟩ := h
        refine .finds hr (Bool.eq_false_iff.2 unprocessed) (Nat.pos_of_ne_zero positive) ?_ received
        rcases evidence with ⟨-, eq⟩ | ⟨-, b, reaches, eq⟩
        · exact .inl eq
        · cases b with
          | false => exact absurd eq positive
          | true => exact .inr reaches

/-! ## Scans and runs -/

theorem run_induction {P : Snapshot → HostHeap → Prop} (h : m.run eager limit = .ok (progress, m'))
    (start : P m.snapshot m.host)
    (visit : ∀ m i m', P m.snapshot m.host → Visits eager m i m' → P m'.snapshot m'.host) :
    P m'.snapshot m'.host := by
  have scan : ∀ {m m' : Marking}, m.scan eager = .ok m' → P m.snapshot m.host →
      P m'.snapshot m'.host := fun scanned start =>
    foldlM_induction (P := fun m => P m.snapshot m.host) scanned start
      fun i _ _ _ holds visited => visit _ i _ holds (visits_of_visit visited)
  unfold run at h
  generalize scanBound m.snapshot limit = bound at h
  induction bound generalizing m with
  | zero =>
    obtain ⟨-, rfl⟩ := Prod.mk.inj (Except.ok.inj h)
    exact start
  | succ bound ih =>
    simp only [scanUpTo, bind_eq_ok] at h
    obtain ⟨m₁, scanned, h⟩ := h
    split at h
    · obtain ⟨-, rfl⟩ := Prod.mk.inj (pure_eq_ok.1 h)
      exact scan scanned start
    · exact ih (scan scanned start) h

theorem quiet_of_foldlM_visit {positions : List Nat} (h : positions.foldlM (visit eager) m = .ok m')
    (nothing : m'.found ≤ m.found) : ∀ i ∈ positions, ∀ r, m'.snapshot.records[i]? = some r →
      r.processed = true ∨ r.external = 0 ∧ m'.host.reaches r.bridge = .ok false := by
  induction positions generalizing m with
  | nil => simp
  | cons p ps ih =>
    rw [List.foldlM_cons, bind_eq_ok] at h
    obtain ⟨m₁, first, others⟩ := h
    have later : m₁.found ≤ m'.found := by
      rcases foldlM_visit_progress others with rfl | ⟨more, -⟩ <;> omega
    cases visits_of_visit first with
    | quiet quiet =>
      intro i mem
      rcases List.mem_cons.1 mem with rfl | mem
      · rcases foldlM_visit_progress others with rfl | ⟨more, -⟩
        · exact quiet
        · omega
      · exact ih others nothing i mem
    | finds => simp at later; omega

theorem quiet_of_run (h : m.run eager limit = .ok (.fixedPoint, m')) :
    m'.snapshot.Quiet m'.host := by
  unfold run at h
  generalize scanBound m.snapshot limit = bound at h
  induction bound generalizing m with
  | zero => simp [scanUpTo] at h
  | succ bound ih =>
    simp only [scanUpTo, bind_eq_ok] at h
    obtain ⟨m₁, scanned, h⟩ := h
    split at h
    · next none =>
      obtain ⟨-, rfl⟩ := Prod.mk.inj (pure_eq_ok.1 h)
      have quiet := quiet_of_foldlM_visit scanned (Nat.le_of_eq none)
      obtain ⟨same, -⟩ := eq_of_scan_found_zero scanned none
      intro r mem
      obtain ⟨i, bound, rfl⟩ := Array.mem_iff_getElem.1 mem
      refine quiet i ?_ _ (Array.getElem?_eq_getElem bound)
      rw [List.mem_range, ← same]
      exact bound
    · exact ih h

/-! ## What a visit keeps -/

theorem onward_receive {g g' : HostHeap} {bridge : Option HostRef}
    (h : g.receive eager bridge = .ok g') : g.Onward g' ∧
      ∀ h ∈ bridge, HostHeap.Marked g'.objects h ∨ h ∈ g'.worklist := by
  cases bridge with
  | none =>
    obtain rfl := Except.ok.inj h
    exact ⟨.refl g, by simp⟩
  | some k =>
    have handed : k ∈ (g.promote k).worklist := List.mem_cons_self
    have onward := HostHeap.onward_promote g k
    simp only [HostHeap.receive] at h
    split at h
    · have drained := HostHeap.onward_drain h
      exact ⟨onward.trans drained, by simpa using drained.listed k handed⟩
    · obtain rfl := Except.ok.inj h
      exact ⟨onward, by simpa using .inr handed⟩

theorem Visits.frozen (v : Visits eager m i m') : m'.snapshot.frozen = m.snapshot.frozen := by
  cases v with
  | quiet => rfl
  | finds hr => exact Snapshot.frozen_settle hr _

theorem Visits.balanced (v : Visits eager m i m') (balanced : m.snapshot.Balanced) :
    m'.snapshot.Balanced := by
  cases v with
  | quiet => exact balanced
  | finds hr unprocessed positive => exact balanced.settle hr unprocessed positive

theorem Visits.onward (v : Visits eager m i m') : m.host.Onward m'.host := by
  cases v with
  | quiet => exact .refl _
  | finds _ _ _ _ received => exact (onward_receive received).1

/-! ## How far liveness comes -/

variable {s₀ s : Snapshot} {g₀ g : HostHeap}

/-- How far liveness has come since marking started at `s₀` and `g₀`: records that were held are
still held, and a record found alive has passed that on along its edges and its bridge. -/
structure Course (s₀ : Snapshot) (g₀ : HostHeap) (s : Snapshot) (g : HostHeap) : Prop where
  frozen : s.frozen = s₀.frozen
  onward : g₀.Onward g
  held : ∀ (i : Nat) r₀ r, s₀.records[i]? = some r₀ → s.records[i]? = some r →
    0 < r₀.external → 0 < r.external
  passed : ∀ (i j : Nat) r q, s.records[i]? = some r → r.processed = true → j ∈ r.edges →
    s.records[j]? = some q → 0 < q.external
  handed : ∀ r ∈ s.records, r.processed = true → ∀ h ∈ r.bridge,
    HostHeap.Marked g.objects h ∨ h ∈ g.worklist

theorem Course.start (unprocessed : ∀ r ∈ s.records, r.processed = false) (g : HostHeap) :
    Course s g s g where
  frozen := rfl
  onward := .refl g
  held i r₀ r hr₀ hr positive := Option.some.inj (hr₀.symm.trans hr) ▸ positive
  passed i j r q hr processed := by simp [unprocessed r (Array.mem_of_getElem? hr)] at processed
  handed r mem processed := by simp [unprocessed r mem] at processed

theorem Course.host {g' : HostHeap} (course : Course s₀ g₀ s g) (onward : g.Onward g') :
    Course s₀ g₀ s g' where
  frozen := course.frozen
  onward := course.onward.trans onward
  held := course.held
  passed := course.passed
  handed r mem processed h bridged := by
    rcases course.handed r mem processed h bridged with marked | listed
    · exact .inl (onward.marked h marked)
    · exact onward.listed h listed

theorem Course.visit (course : Course s₀ g₀ m.snapshot m.host) (v : Visits eager m i m') :
    Course s₀ g₀ m'.snapshot m'.host := by
  have frozen := v.frozen
  have onward := v.onward
  cases v with
  | quiet => exact course
  | @finds r external host hr unprocessed positive _ received =>
    refine ⟨frozen.trans course.frozen, course.onward.trans onward, ?_, ?_, ?_⟩
    · intro j r₀ q hr₀ hq held
      rw [Snapshot.getElem?_settle hr] at hq
      split at hq
      · obtain rfl := Option.some.inj hq
        exact Nat.lt_of_lt_of_le positive (Nat.le_add_right ..)
      · obtain ⟨q', hq', rfl⟩ := Option.map_eq_some_iff.1 hq
        exact Nat.lt_of_lt_of_le (course.held j r₀ q' hr₀ hq' held) (Nat.le_add_right ..)
    · intro j k q p hq processed edge hp
      rw [Snapshot.getElem?_settle hr] at hq hp
      split at hp
      · obtain rfl := Option.some.inj hp
        exact Nat.lt_of_lt_of_le positive (Nat.le_add_right ..)
      · obtain ⟨p', hp', rfl⟩ := Option.map_eq_some_iff.1 hp
        split at hq
        · obtain rfl := Option.some.inj hq
          have : 0 < r.edges.count k := List.count_pos_iff.2 edge
          exact Nat.lt_of_lt_of_le this (Nat.le_add_left ..)
        · obtain ⟨q', hq', rfl⟩ := Option.map_eq_some_iff.1 hq
          have := course.passed j k q' p' hq' processed edge hp'
          exact Nat.lt_of_lt_of_le this (Nat.le_add_right ..)
    · intro q mem processed h bridged
      obtain ⟨j, hj⟩ := Array.mem_iff_getElem?.1 mem
      rw [Snapshot.getElem?_settle hr] at hj
      split at hj
      · obtain rfl := Option.some.inj hj
        exact (onward_receive received).2 h bridged
      · obtain ⟨q', hq', rfl⟩ := Option.map_eq_some_iff.1 hj
        exact (course.host onward).handed q' (Array.mem_of_getElem? hq') processed h bridged

/-! ## How far it can come -/

variable {A : Nat → Prop} {H : HostRef → Prop}

/-- `A` and `H` are closed under everything that passes liveness on in `s` and `g`. -/
structure Closed (A : Nat → Prop) (H : HostRef → Prop) (s : Snapshot) (g : HostHeap) : Prop where
  edge : ∀ (i j : Nat) r, A i → s.records[i]? = some r → j ∈ r.edges → A j
  handed : ∀ (i : Nat) r h, A i → s.records[i]? = some r → r.bridge = some h → H h
  points : ∀ h k, H h → ¬HostHeap.Marked g.objects h → HostHeap.Points g.objects h k → H k
  bridged : ∀ (i : Nat) r h, s.records[i]? = some r → r.bridge = some h →
    HostHeap.Marked g.objects h ∨ HostHeap.Prebuilt g.objects h ∨ H h → A i

structure Within (A : Nat → Prop) (H : HostRef → Prop) (g₀ : HostHeap) (s : Snapshot)
    (g : HostHeap) : Prop where
  alive : ∀ (i : Nat) r, s.records[i]? = some r → 0 < r.external → A i
  confined : HostHeap.Confined H g₀ g

theorem Within.drain {g' : HostHeap} (within : Within A H g₀ s g) (closed : Closed A H s₀ g₀)
    (onward : g₀.Onward g) (drained : g.drain = .ok g') : Within A H g₀ s g' :=
  ⟨within.alive, within.confined.drain onward closed.points drained⟩

theorem Within.receive {g' : HostHeap} {bridge : Option HostRef} (within : Within A H g₀ s g)
    (closed : Closed A H s₀ g₀) (onward : g₀.Onward g) (holds : ∀ h ∈ bridge, H h)
    (received : g.receive eager bridge = .ok g') : HostHeap.Confined H g₀ g' := by
  cases bridge with
  | none => exact Except.ok.inj received ▸ within.confined
  | some k =>
    have handed := within.confined.promote (holds k rfl)
    simp only [HostHeap.receive] at received
    split at received
    · exact handed.drain (onward.trans (HostHeap.onward_promote g k)) closed.points received
    · exact Except.ok.inj received ▸ handed

theorem Within.exists_receive {bridge : Option HostRef} (within : Within A H g₀ s g)
    (closed : Closed A H s₀ g₀) (onward : g₀.Onward g)
    (valid : ∀ h, H h → h.index < g₀.objects.size) (holds : ∀ h ∈ bridge, H h) (eager : Bool) :
    ∃ g', g.receive eager bridge = .ok g' := by
  cases bridge with
  | none => exact ⟨g, rfl⟩
  | some k =>
    simp only [HostHeap.receive]
    split
    · exact (within.confined.promote (holds k rfl)).exists_drain
        (onward.trans (HostHeap.onward_promote g k)) closed.points valid
    · exact ⟨_, rfl⟩

/-- A record that would be found alive is within the bound, and so is its bridge. -/
theorem Within.of_found {r : Snapshot.Record} (within : Within A H g₀ s g)
    (closed : Closed A H s₀ g₀) (course : Course s₀ g₀ s g) (hr : s.records[i]? = some r)
    (found : 0 < r.external ∨ g.reaches r.bridge = .ok true) : A i ∧ ∀ h ∈ r.bridge, H h := by
  obtain ⟨r₀, hr₀, same⟩ := Snapshot.exists_of_frozen_eq course.frozen.symm hr
  have bridge : r₀.bridge = r.bridge := (congrArg Snapshot.Record.bridge same :)
  have alive : A i := by
    rcases found with positive | reaches
    · exact within.alive i r hr positive
    · obtain ⟨h, bridged, known⟩ := HostHeap.reaches_eq_ok_true.1 reaches
      refine closed.bridged i r₀ h hr₀ (bridge.trans bridged) ?_
      rcases known with marked | prebuilt
      · rcases within.confined.marked h marked with old | new
        · exact .inl old
        · exact .inr (.inr new)
      · exact .inr (.inl ((HostHeap.prebuilt_congr course.onward.same).1 prebuilt))
  exact ⟨alive, fun h bridged => closed.handed i r₀ h alive hr₀ (bridge.trans bridged)⟩

theorem Within.visit (within : Within A H g₀ m.snapshot m.host) (closed : Closed A H s₀ g₀)
    (course : Course s₀ g₀ m.snapshot m.host) (v : Visits eager m i m') :
    Within A H g₀ m'.snapshot m'.host := by
  cases v with
  | quiet => exact within
  | @finds r external host hr unprocessed positive evidence received =>
    obtain ⟨r₀, hr₀, same⟩ := Snapshot.exists_of_frozen_eq course.frozen.symm hr
    have edges : r₀.edges = r.edges := (congrArg Snapshot.Record.edges same :)
    have found : 0 < r.external ∨ m.host.reaches r.bridge = .ok true :=
      evidence.imp_left fun (same : external = r.external) => same ▸ positive
    obtain ⟨alive, bridges⟩ := within.of_found closed course hr found
    constructor
    · intro j q hq held
      rw [Snapshot.getElem?_settle hr] at hq
      split at hq
      · next here => exact here ▸ alive
      · obtain ⟨q', hq', rfl⟩ := Option.map_eq_some_iff.1 hq
        by_cases edge : j ∈ r.edges
        · exact closed.edge i j r₀ alive hr₀ (edges ▸ edge)
        · refine within.alive j q' hq' ?_
          simpa [List.count_eq_zero.2 edge] using held
    · exact within.receive closed course.onward bridges received

/-! ## Both together -/

/-- How marking went on from `s₀` and `g₀`: liveness has taken its course, and no bound that held at
the start was left. -/
structure Spreads (s₀ : Snapshot) (g₀ : HostHeap) (s : Snapshot) (g : HostHeap) : Prop where
  course : Course s₀ g₀ s g
  within : ∀ A H, Closed A H s₀ g₀ → Within A H g₀ s₀ g₀ → Within A H g₀ s g

theorem Spreads.start (unprocessed : ∀ r ∈ s.records, r.processed = false) (g : HostHeap) :
    Spreads s g s g :=
  ⟨.start unprocessed g, fun _ _ _ within => within⟩

theorem Spreads.drain {g' : HostHeap} (spreads : Spreads s₀ g₀ s g) (drained : g.drain = .ok g') :
    Spreads s₀ g₀ s g' where
  course := spreads.course.host (HostHeap.onward_drain drained)
  within A H closed start :=
    (spreads.within A H closed start).drain closed spreads.course.onward drained

theorem Spreads.visit (spreads : Spreads s₀ g₀ m.snapshot m.host) (v : Visits eager m i m') :
    Spreads s₀ g₀ m'.snapshot m'.host where
  course := spreads.course.visit v
  within A H closed start := (spreads.within A H closed start).visit closed spreads.course v

end Marking

end CycleCollector
