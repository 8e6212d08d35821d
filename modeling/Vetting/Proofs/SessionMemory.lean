import Vetting.Proofs.SessionOrder

/-! What a session was asked before changes none of its answers: the satisfied sets that it keeps
are those of a new session, and the versions that it came to know lead nowhere. -/

namespace Vetting

namespace Session

variable {model : CriteriaModel} {store : AuditStore model} {mode : ExemptionMode}
  {s : Session store} {calls : List Call} {call : Call} {package criterion : String}
  {v : Version} {id : PackageId} {ids : List PackageId}

/-- The versions of a package that a call makes known to a session. -/
def Call.versionsOf (package : String) : Call → List Version
  | .graph p (some v) => if p = package then [v] else []
  | .satisfied p (some v) => if p = package then [v] else []
  | .satisfies p (some v) _ => if p = package then [v] else []
  | .resolve p (some v) _ => if p = package then [v] else []
  | .prime ids _ => (ids.filter fun id => id.package = package).map PackageId.version
  | _ => []

/-- The releases of a package that its records name or that calls are about. -/
def releasesMet (store : AuditStore model) (calls : List Call) (package : String) : List Release :=
  ((store.recordsFor package).flatMap AuditRecord.versions ++
    calls.flatMap (Call.versionsOf package)).map Version.toRelease

/-- What a session holds after some calls: versions that they are about, and satisfied sets that
are right. -/
structure Recalls [SetOrder] (mode : ExemptionMode) (calls : List Call) (s : Session store) :
    Prop where
  mode_eq : s.mode = mode
  asked : ∀ package, ∀ v ∈ s.askedOf package, v ∈ calls.flatMap (Call.versionsOf package)
  memo : ∀ e ∈ s.memo, ∀ id : PackageId, id.key = e.1 → e.2 = store.satisfied mode id

theorem recalls_start [SetOrder] : Recalls mode [] (start store mode) where
  mode_eq := rfl
  asked := fun package v hv => by
    have hnone : (start store mode).askedOf package = [] := rfl
    rw [hnone] at hv
    cases hv
  memo := fun e he => by cases he

theorem mem_versionsOf_last (hv : v ∈ call.versionsOf package) :
    v ∈ (calls ++ [call]).flatMap (Call.versionsOf package) := by
  rw [List.flatMap_append]
  exact List.mem_append_right _ (by simpa using hv)

theorem Recalls.later [SetOrder] (h : Recalls mode calls s) (call : Call) :
    Recalls mode (calls ++ [call]) s where
  mode_eq := h.mode_eq
  asked := fun package v hv => by
    rw [List.flatMap_append]
    exact List.mem_append_left _ (h.asked package v hv)
  memo := h.memo

theorem mem_askedOf_grow [SetOrder] {p : String} {w : Version}
    (hw : w ∈ (s.grow package v).askedOf p) : w ∈ s.askedOf p ∨ p = package ∧ w = v := by
  unfold grow at hw
  split at hw
  · exact .inl hw
  · rw [askedOf_insert] at hw
    split at hw
    · next hp =>
      rcases List.mem_append.1 hw with hw | hw
      · exact .inl (hp ▸ hw)
      · exact .inr ⟨hp, List.mem_singleton.1 hw⟩
    · exact .inl hw

theorem mem_known_grow [SetOrder] : v.toRelease ∈
    (AuditGraph.known store package ((s.grow package v).askedOf package)).map
      Version.toRelease := by
  have hgrown : AuditGraph.known store package ((s.grow package v).askedOf package) =
      AuditGraph.known store package (s.askedOf package ++ [v]) :=
    congrArg AuditGraph.versions graph_grow
  have hnew : v ∈ s.askedOf package ++ [v] := List.mem_append_right _ (List.mem_singleton.2 rfl)
  rw [hgrown]
  exact AuditGraph.mem_map_known.2 (.inr (List.mem_map_of_mem hnew))

theorem memo_grow [SetOrder] : (s.grow package v).memo = s.memo := by
  unfold grow
  split
  · rfl
  · rfl

theorem Recalls.grow [SetOrder] (h : Recalls mode calls s)
    (hv : v ∈ calls.flatMap (Call.versionsOf package)) : Recalls mode calls (s.grow package v) where
  mode_eq := mode_grow.trans h.mode_eq
  asked := fun p w hw => by
    rcases mem_askedOf_grow hw with hold | ⟨rfl, rfl⟩
    · exact h.asked p w hold
    · exact hv
  memo := memo_grow.symm ▸ h.memo

theorem Recalls.satisfied_eq [SetOrder] (h : Recalls mode calls s) :
    (s.satisfied id).1 = store.satisfied mode id := by
  unfold satisfied
  split
  · next names hnames =>
    obtain ⟨before, after, hmemo, _⟩ := List.lookup_eq_some_iff.1 hnames
    have hmem : (id.key, names) ∈ s.memo := by simp [hmemo]
    exact h.memo _ hmem id rfl
  · show store.satisfiedIn (s.grow id.package id.version).mode _ _ = _
    rw [mode_grow, h.mode_eq]
    exact AuditStore.satisfiedIn_build mem_known_grow

theorem Recalls.satisfied [SetOrder] (h : Recalls mode calls s)
    (hv : id.version ∈ calls.flatMap (Call.versionsOf id.package)) :
    Recalls mode calls (s.satisfied id).2 := by
  have hgrown : Recalls mode calls (s.grow id.package id.version) := h.grow hv
  have hanswer : (s.satisfied id).1 = store.satisfied mode id := h.satisfied_eq
  unfold Session.satisfied at hanswer ⊢
  split at hanswer
  · exact h
  · refine ⟨hgrown.mode_eq, hgrown.asked, fun e he other hkey => ?_⟩
    rcases List.mem_append.1 he with he | he
    · exact hgrown.memo e he other hkey
    · obtain rfl := List.mem_singleton.1 he
      exact hanswer.trans (AuditStore.satisfied_congr_key hkey.symm)

theorem Recalls.resolve [SetOrder] (h : Recalls mode calls s)
    (hv : id.version ∈ calls.flatMap (Call.versionsOf id.package)) :
    Recalls mode calls (s.resolve id criterion).2 := by
  unfold Session.resolve
  dsimp only
  split
  · exact h.grow hv
  · exact h

theorem Recalls.primePackage [SetOrder] (h : Recalls mode calls s)
    (hpackage : ∀ id ∈ ids, id.package = package)
    (hids : ∀ id ∈ ids, id.version ∈ calls.flatMap (Call.versionsOf package)) :
    Recalls mode calls (s.primePackage package ids) := by
  unfold Session.primePackage
  split
  · exact h
  · refine ⟨h.mode_eq, fun p v hv => ?_, fun e he other hkey => ?_⟩
    · change v ∈ ({ s with asked := s.asked.insert package _ } : Session store).askedOf p at hv
      rw [askedOf_insert] at hv
      split at hv
      · next hp =>
        rcases List.mem_append.1 hv with hv | hv
        · obtain ⟨id, hid, rfl⟩ := List.mem_map.1 hv
          exact hp ▸ hids id hid
        · exact hp ▸ h.asked package v hv
      · exact h.asked p v hv
    · rcases List.mem_append.1 he with he | he
      · exact h.memo e he other hkey
      · obtain ⟨id, hid, rfl⟩ := List.mem_map.1 he
        obtain rfl := hpackage id hid
        have hknown : id.version.toRelease ∈ (AuditGraph.known store id.package
            (ids.map PackageId.version ++ s.askedOf id.package)).map Version.toRelease := by
          refine AuditGraph.mem_map_known.2 (.inr (List.mem_map_of_mem ?_))
          exact List.mem_append_left _ (List.mem_map_of_mem hid)
        show store.satisfiedIn s.mode _ _ = _
        rw [h.mode_eq, AuditStore.satisfiedIn_build hknown]
        exact AuditStore.satisfied_congr_key hkey.symm

/-- Priming takes packages one by one: what stays as each of them is looked at stays as all are. -/
theorem prime_invariant [SetOrder] {p : Session store → Prop} (h : p s)
    (hstep : ∀ t package part, p t → (∀ id ∈ part, id ∈ ids ∧ id.package = package) →
      p (t.primePackage package part)) : p (s.prime ids) := by
  unfold Session.prime
  dsimp only
  generalize (NameSet.ofList ((distinctOn PackageId.key ids).map PackageId.package)).toList = names
  induction names generalizing s with
  | nil => exact h
  | cons name names ih =>
    rw [List.foldl_cons]
    refine ih (hstep s name _ h fun id hid => ?_)
    obtain ⟨hmem, hname⟩ := List.mem_filter.1 hid
    exact ⟨mem_of_mem_distinctOn hmem, of_decide_eq_true hname⟩

theorem Recalls.prime [SetOrder] (h : Recalls mode calls s)
    (hids : ∀ id ∈ ids, id.version ∈ calls.flatMap (Call.versionsOf id.package)) :
    Recalls mode calls (s.prime ids) := by
  refine prime_invariant h fun t package part ht hpart => ht.primePackage
    (fun id hid => (hpart id hid).2) fun id hid => ?_
  obtain ⟨hmem, rfl⟩ := hpart id hid
  exact hids id hmem

theorem concrete_eq_ok_iff {version : Option Version} :
    concrete version = .ok v ↔ version = some v := by
  cases version with
  | none => simp [concrete]
  | some w => simp [concrete]

theorem check_then_concrete_eq_ok_iff {version : Option Version} :
    (liftCriteria (model.check criterion) *> concrete version) = .ok v ↔
      criterion ∈ model ∧ version = some v := by
  by_cases hc : criterion ∈ model
  · have hcheck : model.check criterion = .ok () := if_pos hc
    rw [hcheck, and_iff_right hc, ← concrete_eq_ok_iff]
    rfl
  · have hcheck : model.check criterion = .error (model.unknownFault criterion) := if_neg hc
    rw [hcheck]
    refine ⟨fun hok => ?_, fun hboth => absurd hboth.1 hc⟩
    cases hok

theorem concrete_then_check_eq_ok_iff {version : Option Version} :
    (concrete version <* liftCriteria (model.check criterion)) = .ok v ↔
      criterion ∈ model ∧ version = some v := by
  cases version with
  | none =>
    refine ⟨fun hok => ?_, fun hboth => by cases hboth.2⟩
    cases hok
  | some w =>
    by_cases hc : criterion ∈ model
    · have hcheck : model.check criterion = .ok () := if_pos hc
      rw [hcheck, and_iff_right hc, ← concrete_eq_ok_iff]
      rfl
    · have hcheck : model.check criterion = .error (model.unknownFault criterion) := if_neg hc
      rw [hcheck]
      refine ⟨fun hok => ?_, fun hboth => absurd hboth.1 hc⟩
      cases hok

/-- What a call may make of a session: nothing else, or one that learned of versions that the call is
about. -/
inductive Learns [SetOrder] (call : Call) (s : Session store) : Session store → Prop
  | nothing : Learns call s s
  | grow (id : PackageId) (hv : id.version ∈ call.versionsOf id.package) :
      Learns call s (s.grow id.package id.version)
  | satisfied (id : PackageId) (hv : id.version ∈ call.versionsOf id.package) :
      Learns call s (s.satisfied id).2
  | resolve (id : PackageId) (criterion : String)
      (hv : id.version ∈ call.versionsOf id.package) :
      Learns call s (s.resolve id criterion).2
  | prime {ids : List PackageId} (hids : ∀ id ∈ ids, id.version ∈ call.versionsOf id.package) :
      Learns call s (s.prime ids)

theorem learns_perform [SetOrder] (s : Session store) (call : Call) :
    Learns call s (s.perform call).2 := by
  have hself : ∀ (package : String) (v : Version),
      v ∈ if package = package then [v] else [] := by simp
  cases call with
  | graph package version =>
    cases version with
    | none => exact .nothing
    | some v => exact .grow ⟨package, v⟩ (hself package v)
  | satisfied package version =>
    cases version with
    | none => exact .nothing
    | some v => exact .satisfied ⟨package, v⟩ (hself package v)
  | satisfies package version criterion =>
    unfold Session.perform
    dsimp only
    split
    · exact .nothing
    · next v hok =>
      obtain ⟨_, rfl⟩ := check_then_concrete_eq_ok_iff.1 hok
      exact .satisfied ⟨package, v⟩ (hself package v)
  | resolve package version criterion =>
    unfold Session.perform
    dsimp only
    split
    · exact .nothing
    · next v hok =>
      obtain ⟨_, rfl⟩ := concrete_then_check_eq_ok_iff.1 hok
      exact .resolve ⟨package, v⟩ criterion (hself package v)
  | blocking package v criterion => exact .nothing
  | frontier package criterion =>
    unfold Session.perform
    dsimp only
    split
    · exact .nothing
    · exact .nothing
  | prime ids workers =>
    refine .prime fun id hid => List.mem_map_of_mem (List.mem_filter.2 ⟨hid, decide_eq_true rfl⟩)

/-- Every call leaves a session that recalls what was asked of it. -/
theorem Recalls.perform [SetOrder] (h : Recalls mode calls s) (call : Call) :
    Recalls mode (calls ++ [call]) (s.perform call).2 := by
  have hlater : Recalls mode (calls ++ [call]) s := h.later call
  have hlearns : Learns call s (s.perform call).2 := learns_perform s call
  generalize (s.perform call).2 = t at hlearns
  cases hlearns with
  | nothing => exact hlater
  | grow _ hv => exact hlater.grow (mem_versionsOf_last hv)
  | satisfied _ hv => exact hlater.satisfied (mem_versionsOf_last hv)
  | resolve _ _ hv => exact hlater.resolve (mem_versionsOf_last hv)
  | prime hids => exact hlater.prime fun id hid => mem_versionsOf_last (hids id hid)

/-- A session after some calls, in order. -/
def after [SetOrder] (s : Session store) (calls : List Call) : Session store :=
  calls.foldl (fun s call => (s.perform call).2) s

theorem Recalls.after [SetOrder] (h : Recalls mode calls s) (more : List Call) :
    Recalls mode (calls ++ more) (s.after more) := by
  induction more generalizing calls s with
  | nil => rwa [List.append_nil]
  | cons call more ih =>
    have hstep := ih (h.perform call)
    rwa [List.append_assoc] at hstep

theorem recalls_after [SetOrder] (calls : List Call) :
    Recalls mode calls ((start store mode).after calls) := by
  have hstart : Recalls mode [] (start store mode) := recalls_start
  have h := hstart.after calls
  rwa [List.nil_append] at h

theorem Recalls.isSatisfied_resolve [SetOrder] (h : Recalls mode calls s) :
    (s.resolve id criterion).1.isSatisfied = (store.resolve mode id criterion).isSatisfied := by
  rw [resolve_eq_inOrder, h.mode_eq, Bool.eq_iff_iff, AuditStore.isSatisfied_resolve_iff_chain]
  exact @AuditStore.isSatisfied_resolve_iff_chain model store mode criterion id s.order

theorem violations_resolve [SetOrder] : (s.resolve id criterion).1.violations =
    (store.resolve mode id criterion).violations := by
  rw [AuditStore.resolve, AuditStore.violations_resolveIn]
  exact AuditStore.violations_resolveIn

theorem mem_releasesMet {r : Release} : r ∈ releasesMet store calls package ↔
    (∃ record ∈ store.recordsFor package, r ∈ record.versions.map Version.toRelease) ∨
      r ∈ (calls.flatMap (Call.versionsOf package)).map Version.toRelease := by
  rw [releasesMet, List.map_append, List.mem_append, List.map_flatMap, List.mem_flatMap]

/-- Where releases that were met have different precedence, a criterion is resolved as if nothing
had been asked before, path and all. -/
theorem Recalls.resolve_eq [SetOrder] (h : Recalls mode calls s)
    (hv : id.version ∈ calls.flatMap (Call.versionsOf id.package))
    (hapart : Release.Apart (releasesMet store calls id.package)) :
    (s.resolve id criterion).1 = store.resolve mode id criterion := by
  have hmet : ∀ r ∈ (@AuditGraph.known s.order model store id.package [id.version]).map
      Version.toRelease, r ∈ releasesMet store calls id.package := by
    intro r hr
    rw [mem_releasesMet]
    refine ((@AuditGraph.mem_map_known model store id.package _ r s.order).1 hr).imp_right
      fun hself => ?_
    obtain rfl := List.mem_singleton.1 hself
    exact List.mem_map_of_mem hv
  rw [resolve_eq_inOrder, h.mode_eq]
  exact AuditStore.resolve_congr_order (hapart.subset hmet)

/-- What a session answers compared with what a new one does. The path to a release is the same
where no two releases that were met have the same precedence. -/
structure AnswersAsNew [SetOrder] (mode : ExemptionMode) (calls : List Call) (s : Session store) :
    Prop where
  satisfied : ∀ package version, (s.perform (.satisfied package version)).1 =
    ((start store mode).perform (.satisfied package version)).1
  satisfies : ∀ package version criterion,
    (s.perform (.satisfies package version criterion)).1 =
      ((start store mode).perform (.satisfies package version criterion)).1
  blocking : ∀ package v criterion, (s.perform (.blocking package v criterion)).1 =
    ((start store mode).perform (.blocking package v criterion)).1
  resolve : ∀ package version criterion,
    (∃ f, (s.perform (.resolve package version criterion)).1 = .error f ∧
      ((start store mode).perform (.resolve package version criterion)).1 = .error f) ∨
    ∃ answer new, (s.perform (.resolve package version criterion)).1 = .ok (.resolution answer) ∧
      ((start store mode).perform (.resolve package version criterion)).1 =
          .ok (.resolution new) ∧
        answer.isSatisfied = new.isSatisfied ∧ answer.violations = new.violations ∧
          (Release.Apart (releasesMet store (calls ++ [.resolve package version criterion]) package) →
            answer.path = new.path)

theorem Recalls.answersAsNew [SetOrder] (h : Recalls mode calls s) : AnswersAsNew mode calls s where
  satisfied := fun package version => by
    cases version with
    | none => rfl
    | some v =>
      have hnames : (s.satisfied ⟨package, v⟩).1 = ((start store mode).satisfied ⟨package, v⟩).1 :=
        h.satisfied_eq.trans satisfied_start.symm
      exact congrArg (fun names => Except.ok (Answer.names names)) hnames
  satisfies := fun package version criterion => by
    unfold Session.perform
    dsimp only
    split
    · rfl
    · next v _ =>
      have hnames : (s.satisfied ⟨package, v⟩).1 = ((start store mode).satisfied ⟨package, v⟩).1 :=
        h.satisfied_eq.trans satisfied_start.symm
      exact congrArg (fun names => Except.ok (Answer.holds (decide (criterion ∈ names)))) hnames
  blocking := fun _ _ _ => rfl
  resolve := fun package version criterion => by
    cases hgate : concrete version <* liftCriteria (model.check criterion) with
    | error f =>
      refine .inl ⟨f, ?_, ?_⟩
      · simp only [Session.perform, hgate]
      · simp only [Session.perform, hgate]
    | ok v =>
      obtain ⟨_, rfl⟩ := concrete_then_check_eq_ok_iff.1 hgate
      have hperform : ∀ t : Session store,
          (t.perform (.resolve package (some v) criterion)).1 =
            .ok (.resolution (t.resolve ⟨package, v⟩ criterion).1) := by
        intro t
        simp only [Session.perform, hgate]
      have hlater : Recalls mode (calls ++ [.resolve package (some v) criterion]) s := h.later _
      have hmet : v ∈ (calls ++ [Call.resolve package (some v) criterion]).flatMap
          (Call.versionsOf package) := mem_versionsOf_last (by simp [Call.versionsOf])
      have hnew : ((start store mode).resolve ⟨package, v⟩ criterion).1 =
          store.resolve mode ⟨package, v⟩ criterion := resolve_start criterion
      have hid : (⟨package, v⟩ : PackageId).version ∈ _ := hmet
      refine .inr ⟨(s.resolve ⟨package, v⟩ criterion).1, store.resolve mode ⟨package, v⟩ criterion,
        hperform s, (hperform _).trans (hnew ▸ rfl), h.isSatisfied_resolve, violations_resolve,
        fun hapart => ?_⟩
      exact congrArg Resolution.path (hlater.resolve_eq hid hapart)

/-- What a session was asked before does not show in its answers, but for the order of paths
between releases of the same precedence. -/
theorem after_answersAsNew [SetOrder] (store : AuditStore model) (mode : ExemptionMode)
    (calls : List Call) : AnswersAsNew mode calls ((start store mode).after calls) :=
  (recalls_after calls).answersAsNew

theorem after_answersAsNew_reviewedTwice :
    let first : Version := { major := 1, minor := 0, patch := 0 }
    let last : Version := { major := 3, minor := 1, patch := 0 }
    let calls : List Call := [.prime [⟨"pad", last⟩, ⟨"pad", first⟩] 2,
      .satisfied "pad" (some { last with patch := 1 }), .resolve "pad" (some last) safeToRun]
    Release.Apart (releasesMet reviewedTwice calls "pad") ∧
      AnswersAsNew .deny calls ((start reviewedTwice .deny).after calls) :=
  ⟨by decide +kernel, after_answersAsNew reviewedTwice .deny _⟩

end Session

end Vetting
