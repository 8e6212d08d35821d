import Vetting.Proofs.SessionPropagation
import Vetting.Report.Panel

/-! Vets by sessions that are kept. Once it was primed a session learns nothing of the packages of a
graph, and finds all paths in one order: the report is that of the store, in that order. -/

namespace Vetting

variable {model : CriteriaModel} {store : AuditStore model} {mode : ExemptionMode}
  {s : Session store} {p : Panel store} {g : DependencyGraph} {policies : PolicyTable}
  {id : PackageId} {ids : List PackageId} {criterion : String}

namespace Session

/-- Whether a session is one that was started under a mode, and then asked some calls. -/
def Kept [SetOrder] (mode : ExemptionMode) (s : Session store) : Prop :=
  ∃ calls, s = (start store mode).after calls

/-- Whether a session was asked before about the packages of a graph, and learns nothing of them. -/
structure Primed [SetOrder] (mode : ExemptionMode) (g : DependencyGraph) (s : Session store) :
    Prop where
  kept : s.Kept mode
  knows : s.Knows g
  remembers : ∀ id ∈ g.thirdParty, s.Remembers id.key

variable [SetOrder]

theorem kept_start : (start store mode).Kept mode := ⟨[], rfl⟩

theorem Kept.perform (h : s.Kept mode) (call : Call) : (s.perform call).2.Kept mode := by
  obtain ⟨calls, rfl⟩ := h
  exact ⟨calls ++ [call], by simp only [after, List.foldl_concat]⟩

theorem Kept.mode_eq (h : s.Kept mode) : s.mode = mode := by
  obtain ⟨calls, rfl⟩ := h
  exact (recalls_after calls).mode_eq

theorem Kept.satisfied_eq (h : s.Kept mode) : (s.satisfied id).1 = store.satisfied mode id := by
  obtain ⟨calls, rfl⟩ := h
  exact (recalls_after calls).satisfied_eq

theorem Kept.satisfied (h : s.Kept mode) (id : PackageId) : (s.satisfied id).2.Kept mode :=
  h.perform (.satisfied id.package (some id.version))

theorem Kept.settled (h : s.Kept mode) : s.Settled := by
  obtain ⟨calls, rfl⟩ := h
  exact settled_start.after calls

theorem Kept.primed (h : s.Kept mode) (g : DependencyGraph) :
    (s.prime g.thirdParty).Primed mode g where
  kept := h.perform (.prime g.thirdParty 1)
  knows := h.settled.knows_prime
  remembers _ hid := remembers_prime hid

theorem Primed.satisfied (h : s.Primed mode g) (hid : id ∈ g.thirdParty) :
    s.satisfied id = (@AuditStore.satisfied model store mode s.order id, s) :=
  Prod.ext (h.kept.satisfied_eq.trans AuditStore.satisfied_congr_order)
    (h.remembers id hid).satisfied_eq

theorem Primed.resolve (h : s.Primed mode g) (hid : id ∈ g.thirdParty) :
    s.resolve id criterion = (@AuditStore.resolve model store mode s.order id criterion, s) := by
  have hknown : (s.graph id.package).has id.version.toRelease = true :=
    h.knows _ (List.mem_map_of_mem hid)
  have hgrow : s.grow id.package id.version = s := if_pos hknown
  refine Prod.ext (h.kept.mode_eq ▸ resolve_eq_inOrder s id criterion) ?_
  unfold Session.resolve
  dsimp only
  split
  · exact hgrow
  · rfl

theorem Primed.pathsOf (h : s.Primed mode g) (hid : id ∈ g.thirdParty) (cs : List String) :
    s.pathsOf id cs =
      (cs.map fun c => (c, (@AuditStore.resolve model store mode s.order id c).path), s) := by
  induction cs with
  | nil => rfl
  | cons c cs ih => simp only [Session.pathsOf, h.resolve hid, ih, List.map_cons]

theorem Primed.propagate (h : s.Primed mode g) (policies : PolicyTable) :
    s.propagate policies g = ((@AuditStore.propagator model store mode s.order policies).propagate
      g).map fun r => (r, s) := by
  have hfinds : Finds g (@AuditStore.evidence s.order model store mode) fun t => t = s :=
    { path_eq := by
        rintro _ rfl id _ _ c
        exact congrArg Resolution.path (h.kept.mode_eq ▸ resolve_eq_inOrder _ id c)
      resolve := (h.knows.finds fun _ hk => hk).resolve }
  obtain ⟨_, rfl, hpropagate⟩ := hfinds.propagate_eq rfl policies
  exact hpropagate

end Session

namespace Panel

open Session

variable [SetOrder]

/-- What holds of the sessions of a vet as it goes on: the main one stays as it was primed. -/
structure Holds (s : Session store) (p : Panel store) : Prop where
  main_eq : p.main = s
  lenient : p.lenient.Kept .allow
  audited : p.audited.Kept .deny

theorem Holds.explain (h : p.Holds s) (hs : s.Primed mode g) (hid : id ∈ g.thirdParty)
    (criterion : String) : ∃ q : Panel store, q.Holds s ∧
      p.explain id criterion = (@AuditStore.explain model store mode s.order id criterion, q) := by
  obtain ⟨main, lenient, audited⟩ := p
  obtain ⟨rfl, hlenient, haudited⟩ := h
  have hallowed : (lenient.satisfied id).1 =
      @AuditStore.satisfied model store .allow main.order id :=
    hlenient.satisfied_eq.trans AuditStore.satisfied_congr_order
  have hmode : main.mode = mode := hs.kept.mode_eq
  have hholds : (⟨main, lenient, audited⟩ : Panel store).Holds main := ⟨rfl, hlenient, haudited⟩
  have hasked : (⟨main, (lenient.satisfied id).2, audited⟩ : Panel store).Holds main :=
    ⟨rfl, hlenient.satisfied id, haudited⟩
  simp only [Panel.explain, AuditStore.explain, hs.resolve hid, hmode, hallowed]
  cases @AuditStore.resolve model store mode main.order id criterion with
  | vetoed vs => exact ⟨_, hholds, rfl⟩
  | satisfied path =>
    by_cases hall : mode = .allow
    · exact ⟨_, hholds, by simp [hall]⟩
    · exact ⟨_, hasked, by simp [hall]⟩
  | unreached =>
    by_cases hall : mode = .allow
    · exact ⟨_, hholds, by simp [hall]⟩
    · exact ⟨_, hasked, by simp [hall]⟩

theorem Holds.explainEach (h : p.Holds s) (hs : s.Primed mode g) (hid : id ∈ g.thirdParty)
    (cs : List String) : ∃ q : Panel store, q.Holds s ∧ p.explainEach id cs =
      (cs.map fun c => ⟨c, @AuditStore.explain model store mode s.order id c⟩, q) := by
  induction cs generalizing p with
  | nil => exact ⟨p, h, rfl⟩
  | cons c cs ih =>
    obtain ⟨t, ht, hfirst⟩ := h.explain hs hid c
    obtain ⟨q, hq, hrest⟩ := ih ht
    exact ⟨q, hq, by simp only [Panel.explainEach, hfirst, hrest, List.map_cons]⟩

theorem Holds.satisfiedAudited (h : p.Holds s) (hs : s.Primed mode g) (hid : id ∈ g.thirdParty) :
    ∃ q : Panel store, q.Holds s ∧
      p.satisfiedAudited id = (@AuditStore.satisfied model store .deny s.order id, q) := by
  obtain ⟨main, lenient, audited⟩ := p
  obtain ⟨rfl, hlenient, haudited⟩ := h
  have hmode : main.mode = mode := hs.kept.mode_eq
  by_cases hdeny : mode = .deny
  · subst hdeny
    refine ⟨⟨main, lenient, audited⟩, ⟨rfl, hlenient, haudited⟩, ?_⟩
    simp only [Panel.satisfiedAudited, hmode, if_true, hs.satisfied hid]
  · refine ⟨⟨main, lenient, (audited.satisfied id).2⟩, ⟨rfl, hlenient, haudited.satisfied id⟩, ?_⟩
    simp only [Panel.satisfiedAudited, hmode, if_neg hdeny]
    rw [haudited.satisfied_eq, AuditStore.satisfied_congr_order]

theorem Holds.classify (h : p.Holds s) (hs : s.Primed mode g) (hid : id ∈ g.thirdParty)
    (required : NameSet) : ∃ q : Panel store, q.Holds s ∧
      p.classify id required = (@AuditStore.classify model store mode s.order id required, q) := by
  by_cases hempty : required.isEmpty = true
  · have hwithin : required.within (@AuditStore.satisfied model store .deny s.order id) = true :=
      NameSet.within_iff.2 fun c hc => absurd hc (NameSet.isEmpty_iff.1 hempty c)
    refine ⟨p, h, ?_⟩
    simp only [Panel.classify, AuditStore.classify, hempty, hwithin, if_true]
  · obtain ⟨q, hq, haudited⟩ := h.satisfiedAudited hs hid
    obtain ⟨main, lenient, audited⟩ := q
    obtain ⟨rfl, hlenient, hdenied⟩ := hq
    refine ⟨⟨main, lenient, audited⟩, ⟨rfl, hlenient, hdenied⟩, ?_⟩
    have hpaths : ((required.toList.map fun c =>
        (c, (@AuditStore.resolve model store mode main.order id c).path)).all fun found =>
          AuditStore.isBareExemption found.2) = required.toList.all fun c =>
            AuditStore.isBareExemption (@AuditStore.resolve model store mode main.order id c).path :=
      List.all_map
    simp only [Panel.classify, AuditStore.classify, hempty, haudited, hs.pathsOf hid, hpaths,
      Bool.false_eq_true, if_false]
    split
    · rfl
    · rfl

theorem Holds.judge (h : p.Holds s) (hs : s.Primed mode g) (hid : id ∈ g.thirdParty)
    (required : NameSet) : ∃ q : Panel store, q.Holds s ∧
      p.judge id required = (@AuditStore.judge model store mode s.order id required, q) := by
  obtain ⟨main, lenient, audited⟩ := p
  obtain ⟨rfl, hlenient, haudited⟩ := h
  let satisfied := @AuditStore.satisfied model store mode main.order id
  have hholds : (⟨main, lenient, audited⟩ : Panel store).Holds main := ⟨rfl, hlenient, haudited⟩
  obtain ⟨t, ht, hfailures⟩ := hholds.explainEach hs hid (required \ satisfied).toList
  obtain ⟨q, hq, hstatus⟩ := ht.classify hs hid required
  simp only [Panel.judge, AuditStore.judge, hs.satisfied hid]
  rw [hfailures]
  dsimp only
  split
  · exact ⟨q, hq, by rw [hstatus]⟩
  · exact ⟨t, ht, rfl⟩

theorem Holds.judgeEach (h : p.Holds s) (hs : s.Primed mode g) (requirements : Requirements)
    (hids : ∀ id ∈ ids, id ∈ g.thirdParty) : ∃ q : Panel store, q.Holds s ∧
      p.judgeEach requirements ids = (ids.map fun id =>
        @AuditStore.judge model store mode s.order id (requirements.of id.key), q) := by
  induction ids generalizing p with
  | nil => exact ⟨p, h, rfl⟩
  | cons id ids ih =>
    obtain ⟨hid, hids⟩ := List.forall_mem_cons.1 hids
    obtain ⟨t, ht, hfirst⟩ := h.judge hs hid (requirements.of id.key)
    obtain ⟨q, hq, hrest⟩ := ih ht hids
    exact ⟨q, hq, by simp only [Panel.judgeEach, hfirst, hrest, List.map_cons]⟩

/-- Whether the sessions of a vet are of the modes that it asks about, after whatever calls. -/
structure Ready (mode : ExemptionMode) (p : Panel store) : Prop where
  main : p.main.Kept mode
  lenient : p.lenient.Kept .allow
  audited : p.audited.Kept .deny

theorem ready_start : (start store mode).Ready mode := ⟨kept_start, kept_start, kept_start⟩

/-- A vet by sessions that are kept is a vet of the store, where sets are gone through as the main
session has the releases that it knows: what holds of the one in every order holds of the other. -/
theorem Ready.vet_eq_inOrder (h : p.Ready mode) (g : DependencyGraph) (policies : PolicyTable) :
    ∃ q : Panel store, q.Ready mode ∧ p.vet g policies =
      (@AuditStore.vet model store mode (p.main.prime g.thirdParty).order g policies).map
        fun report => (report, q) := by
  let s := p.main.prime g.thirdParty
  have hs : s.Primed mode g := h.main.primed g
  rw [Panel.vet, AuditStore.vet]
  cases hcheck : policies.check model with
  | error f => exact ⟨p, h, rfl⟩
  | ok =>
    rw [show s.propagate policies g = _ from hs.propagate policies]
    cases hpropagate : (@AuditStore.propagator model store mode s.order policies).propagate g with
    | error f => exact ⟨p, h, rfl⟩
    | ok requirements =>
      have hholds : ({ p with main := s } : Panel store).Holds s := ⟨rfl, h.lenient, h.audited⟩
      obtain ⟨q, hq, hverdicts⟩ := hholds.judgeEach hs requirements fun _ hid => hid
      have hmain : q.main.Kept mode := hq.main_eq ▸ hs.kept
      refine ⟨q, ⟨hmain, hq.lenient, hq.audited⟩, ?_⟩
      let judged := ({ p with main := s } : Panel store).judgeEach requirements g.thirdParty
      change Except.ok (({ verdicts := judged.1
                           firstParty := g.firstParty.map PackageNode.id
                           conflicts := store.conflictsIn g.packages
                           rejected := store.rejected
                           mode := judged.2.main.mode } : Report), judged.2) = _
      simp only [judged, hverdicts, hmain.mode_eq]
      rfl

end Panel

end Vetting
