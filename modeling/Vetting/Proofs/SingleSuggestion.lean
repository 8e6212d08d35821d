import Vetting.Proofs.MoreRecords
import Vetting.Proofs.Obligation
import Vetting.Proofs.SessionMemory
import Vetting.Suggestion.Single

/-! The suggestion for one gap. Its kind tells what the records say of the criterion, and every
audit that is considered would close the gap, so that none is discarded for not doing so. -/

namespace Vetting

theorem mem_of_cheapest? {cost : Version → Int} {vs : List Version} {v : Version}
    (h : cheapest? cost vs = some v) : v ∈ vs := by
  induction vs generalizing v with
  | nil => cases h
  | cons u vs ih =>
    unfold cheapest? at h
    split at h
    · next w hw =>
      have hmem : w ∈ vs := ih hw
      split at h
      · obtain rfl := Option.some.inj h
        exact List.mem_cons_of_mem _ hmem
      · obtain rfl := Option.some.inj h
        exact List.mem_cons_self ..
    · obtain rfl := Option.some.inj h
      exact List.mem_cons_self ..

/-- Whether an exemption is for a version and carries what implies a criterion. -/
structure Exemption.Covers (model : CriteriaModel) (key : PackageKey) (criterion : String)
    (e : Exemption) : Prop where
  package_eq : e.package = key.package
  release_eq : e.version.toRelease = key.release
  implies : ∃ d ∈ e.criteria, criterion ∈ model.closure d

namespace AuditStore

variable {model : CriteriaModel} {store : AuditStore model} {mode : ExemptionMode}
  {c : String} {id : PackageId} {e : Exemption}

/-- Whether exemptions cover a criterion at a version and all of them want no review. -/
def OptedOut (store : AuditStore model) (key : PackageKey) (criterion : String) : Prop :=
  (∃ e, .exemption e ∈ store.accepted ∧ e.Covers model key criterion) ∧
    ∀ e, .exemption e ∈ store.accepted → e.Covers model key criterion → e.suggest = false

theorem mem_exemptionsFor {v : Release} {package : String} :
    e ∈ store.exemptionsFor package v ↔
      .exemption e ∈ store.accepted ∧ e.package = package ∧ e.version.toRelease = v := by
  rw [exemptionsFor, List.mem_filter, List.mem_filterMap, decide_eq_true_eq]
  constructor
  · intro hx
    obtain ⟨⟨r, hr, hre⟩, hv⟩ := hx
    cases r with
    | exemption x =>
      obtain rfl := Option.some.inj hre
      obtain ⟨haccepted, hpackage⟩ := mem_recordsFor.1 hr
      exact ⟨haccepted, hpackage, hv⟩
    | full a => cases hre
    | delta a => cases hre
    | grant g => cases hre
    | violation w => cases hre
  · intro hx
    obtain ⟨haccepted, hpackage, hv⟩ := hx
    exact ⟨⟨.exemption e, mem_recordsFor.2 ⟨haccepted, hpackage⟩, rfl⟩, hv⟩

theorem mem_covering : e ∈ (store.exemptionsFor id.package id.version.toRelease).filter
      (fun e => e.criteria.meets (model.satisfiers c)) ↔
    .exemption e ∈ store.accepted ∧ e.Covers model id.key c := by
  rw [List.mem_filter, mem_exemptionsFor, NameSet.meets_iff]
  constructor
  · intro hx
    obtain ⟨⟨haccepted, hpackage, hv⟩, d, hd, hc⟩ := hx
    exact ⟨haccepted, hpackage, hv, d, hd, (model.mem_satisfiers.1 hc).2⟩
  · intro hx
    obtain ⟨haccepted, hpackage, hv, d, hd, hc⟩ := hx
    have hknown : d ∈ model := known_of_mem_accepted haccepted hd
    exact ⟨⟨haccepted, hpackage, hv⟩, d, hd, model.mem_satisfiers.2 ⟨hknown, hc⟩⟩

theorem optedOut_iff : store.optedOut id c = true ↔ store.OptedOut id.key c := by
  have hnone : ∀ {l : List Exemption}, (!l.isEmpty && !l.any Exemption.suggest) = true ↔
      (∃ e, e ∈ l) ∧ ∀ e ∈ l, e.suggest = false := by
    intro l
    rw [Bool.and_eq_true, Bool.not_eq_true', Bool.not_eq_true', List.isEmpty_eq_false_iff_exists_mem,
      List.any_eq_false]
    simp only [Bool.not_eq_true]
  refine hnone.trans ?_
  simp only [mem_covering, and_imp]
  rfl

/-- An exemption that is admitted satisfies what it covers. -/
theorem satisfied_of_covers [SetOrder] (hc : c ∈ model)
    (hundenied : store.Undenied id.key c)
    (he : .exemption e ∈ store.accepted) (hcovers : e.Covers model id.key c) :
    c ∈ store.satisfied .allow id := by
  have hcounts : store.Counts .allow id.package c (.exemption e) :=
    ⟨he, hcovers.package_eq, rfl, hcovers.implies⟩
  have hvouches : (AuditRecord.exemption e).Vouches id.version.toRelease := hcovers.release_eq
  exact mem_satisfied_iff_chain.2 ⟨hc, hundenied, _, .vouched hcounts hvouches⟩

theorem blocking_ne_nil_of_isVetoed {graph : AuditGraph} {v : Release}
    (h : (store.resolveIn mode graph v c).isVetoed = true) :
    store.blocking graph.package v c ≠ [] := by
  intro hnone
  unfold resolveIn at h
  rw [hnone] at h
  dsimp only at h
  split at h
  · cases h
  · cases h

theorem isEmpty_blocking_iff :
    (store.blocking id.package id.version.toRelease c).isEmpty = true ↔
      store.Undenied id.key c := by
  rw [List.isEmpty_iff]
  exact blocking_eq_nil_iff

end AuditStore

namespace Session

variable {model : CriteriaModel} {store : AuditStore model} {mode : ExemptionMode}
  {s : Session store} {calls : List Call} {cost : CostMetric} {id : PackageId}
  {c package : String} {required : NameSet} {v : Version}

theorem Recalls.satisfied_of_mem_frontier [SetOrder] (h : Recalls mode calls s) (hc : c ∈ model)
    (hv : v ∈ s.frontier package c) : c ∈ store.satisfied mode ⟨package, v⟩ := by
  obtain ⟨hknown, hsat⟩ := List.mem_filter.1 hv
  have hmem : v.toRelease ∈
      (AuditGraph.known store package (s.askedOf package)).map Version.toRelease :=
    List.mem_map_of_mem hknown
  have hsame : (store.resolveIn mode (s.graph package) v.toRelease c).isSatisfied =
      (store.resolve mode ⟨package, v⟩ c).isSatisfied :=
    AuditStore.isSatisfied_resolveIn_build ⟨package, v⟩ hmem
  have hfresh : (store.resolve mode ⟨package, v⟩ c).isSatisfied = true := by
    rw [← hsame, ← h.mode_eq]
    exact hsat
  exact (store.mem_satisfied_iff_isSatisfied_resolve mode).2 ⟨hc, hfresh⟩

theorem Recalls.mem_startsFor [SetOrder] (h : Recalls mode calls s) (hc : c ∈ model)
    (hv : v ∈ s.startsFor id c) :
    v.toRelease ≠ id.version.toRelease ∧ c ∈ store.satisfied mode ⟨id.package, v⟩ := by
  obtain ⟨hfrontier, hmoves⟩ := List.mem_filter.1 (mem_sortBy.1 hv)
  exact ⟨of_decide_eq_true hmoves, h.satisfied_of_mem_frontier hc hfrontier⟩

theorem Recalls.candidate [SetOrder] (h : Recalls mode calls s)
    (hid : id.version ∈ calls.flatMap (Call.versionsOf id.package)) :
    Recalls mode calls (s.candidate cost id c required).2 := by
  unfold Session.candidate
  split
  · exact h
  · exact h.satisfied hid

/-- The audit that is considered for a gap would close it. -/
structure Considered [SetOrder] (store : AuditStore model) (mode : ExemptionMode) (id : PackageId)
    (criterion : String) (a : SuggestedAudit) : Prop where
  package_eq : a.package = id.package
  target_eq : a.target = id.version
  promising : a.Promising store mode
  covers : criterion ∈ model.expand a.criteria

theorem considered_change [SetOrder] {start : Version} {price : Int} (hc : c ∈ model)
    (hundenied : store.Undenied id.key c) (hmoves : start.toRelease ≠ id.version.toRelease)
    (hbased : c ∈ store.satisfied mode ⟨id.package, start⟩) :
    Considered store mode id c
      { package := id.package, start := some start, target := id.version,
        criteria := .single c, cost := price } := by
  have hself : c ∈ model.expand (.single c) :=
    model.mem_expand.2 ⟨c, NameSet.mem_single.2 rfl, model.self_mem_closure c⟩
  refine ⟨rfl, rfl, ⟨?_, ⟨c, NameSet.mem_single.2 rfl⟩, ?_, ?_, ?_⟩, hself⟩
  · intro d hd
    exact NameSet.mem_single.1 hd ▸ hc
  · intro d hd
    exact NameSet.mem_single.1 hd ▸ hundenied
  · intro u hu
    exact Option.some.inj hu ▸ hmoves
  · intro u hu d hd
    obtain rfl := Option.some.inj hu
    exact NameSet.mem_single.1 hd ▸ hbased

/-- A full audit is for all that is wanted, of which minimizing loses nothing. -/
theorem considered_whole [SetOrder] {wanted : NameSet} {price : Int}
    (hknown : ∀ d ∈ wanted, d ∈ model)
    (hundenied : ∀ d ∈ wanted, store.Undenied id.key d) (hc : c ∈ wanted) :
    Considered store mode id c
      { package := id.package, start := none, target := id.version,
        criteria := model.minimize wanted, cost := price } := by
  obtain ⟨d, hd, hcd⟩ := model.exists_mem_minimize hc
  have hwanted : ∀ e ∈ model.minimize wanted, e ∈ wanted := fun e he => (model.mem_minimize.1 he).1
  refine ⟨rfl, rfl, ⟨?_, ⟨d, hd⟩, ?_, ?_, ?_⟩, model.mem_expand.2 ⟨d, hd, hcd⟩⟩
  · exact fun e he => hknown e (hwanted e he)
  · exact fun e he => hundenied e (hwanted e he)
  · intro u hu
    cases hu
  · intro u hu
    cases hu

theorem Recalls.considered_candidate [SetOrder] (h : Recalls mode calls s) (hc : c ∈ model)
    (hrequired : ∀ d ∈ required, d ∈ model) (hundenied : store.Undenied id.key c)
    (hgap : c ∉ store.satisfied mode id) :
    Considered store mode id c (s.candidate cost id c required).1 := by
  unfold Session.candidate
  split
  · next start hstart =>
    obtain ⟨hmoves, hbased⟩ := h.mem_startsFor hc (mem_of_cheapest? hstart)
    exact considered_change hc hundenied hmoves hbased
  · have hwanted : ∀ d, d ∈ ((required.insert c \ (s.satisfied id).1).filter fun d =>
        (store.blocking id.package id.version.toRelease d).isEmpty) ↔
          (d = c ∨ d ∈ required) ∧ d ∉ store.satisfied mode id ∧ store.Undenied id.key d := by
      intro d
      rw [NameSet.mem_filter, NameSet.mem_sdiff, NameSet.mem_insert, h.satisfied_eq,
        AuditStore.isEmpty_blocking_iff, and_assoc]
    refine considered_whole (fun d hd => ?_) (fun d hd => ((hwanted d).1 hd).2.2)
      ((hwanted c).2 ⟨.inl rfl, hgap, hundenied⟩)
    rcases ((hwanted d).1 hd).1 with rfl | hd
    · exact hc
    · exact hrequired d hd

theorem Considered.key_eq [SetOrder] {a : SuggestedAudit} (h : Considered store mode id c a) :
    a.key = id.key := by
  rw [SuggestedAudit.key, PackageId.key, h.package_eq, h.target_eq]

theorem Considered.satisfied [SetOrder] {a : SuggestedAudit} (h : Considered store mode id c a) :
    c ∈ (store.withRecords [a.toRecord]).satisfied mode id := by
  have hpositive : ∀ r ∈ [a.toRecord], r.violation? = none := by
    intro r hr
    rw [List.mem_singleton.1 hr]
    exact SuggestedAudit.violation?_toRecord
  have hsat := h.promising.satisfied (List.mem_singleton.2 rfl) hpositive h.covers
  rwa [h.package_eq, h.target_eq] at hsat

theorem Considered.closes [SetOrder] {a : SuggestedAudit} (h : Considered store mode id c a) :
    store.closes mode a c = true := by
  have hsat := h.satisfied
  rw [AuditStore.mem_satisfied_iff_isSatisfied_resolve] at hsat
  rw [AuditStore.closes, h.package_eq, h.target_eq]
  exact hsat.2

theorem Considered.accepted_eq [SetOrder] {a : SuggestedAudit} (h : Considered store mode id c a) :
    (store.withRecords [a.toRecord]).accepted = store.accepted ++ [a.toRecord] := by
  rw [AuditStore.accepted_withRecords, AuditStore.accepted_ofRecords]
  simp [h.promising.fault?_toRecord]

/-- The kinds of suggestions and what the records say where they are given. -/
inductive Advice [SetOrder] (store : AuditStore model) (mode : ExemptionMode) (id : PackageId)
    (criterion : String) : Suggestion → Prop
  | blocked (denied : ¬store.Undenied id.key criterion) :
      Advice store mode id criterion
        (.blocked (store.blocking id.package id.version.toRelease criterion))
  | satisfied (undenied : store.Undenied id.key criterion)
      (holds : criterion ∈ store.satisfied mode id) : Advice store mode id criterion .satisfied
  | optedOut (undenied : store.Undenied id.key criterion)
      (gap : criterion ∉ store.satisfied mode id) (out : store.OptedOut id.key criterion) :
      Advice store mode id criterion (.noCandidate .optedOut)
  | proposed {a : SuggestedAudit}
      (undenied : store.Undenied id.key criterion)
      (gap : criterion ∉ store.satisfied mode id) (wanted : ¬store.OptedOut id.key criterion)
      (considered : Considered store mode id criterion a) :
      Advice store mode id criterion (.proposed a)

/-- A session that recalls what it was asked gives advice: the test that could discard an audit
never does. -/
theorem Recalls.advice [SetOrder] (h : Recalls mode calls s)
    (hid : id.version ∈ calls.flatMap (Call.versionsOf id.package)) (hc : c ∈ model)
    (hrequired : ∀ d ∈ required, d ∈ model) :
    Advice store mode id c (s.suggest cost id c required).1 := by
  have hviolations : (s.resolve id c).1.violations =
      store.blocking id.package id.version.toRelease c := AuditStore.violations_resolveIn
  have hsatisfied : (s.resolve id c).1.isSatisfied = true ↔ c ∈ store.satisfied mode id := by
    rw [h.isSatisfied_resolve, store.mem_satisfied_iff_isSatisfied_resolve mode, and_iff_right hc]
  have hvetoed : (s.resolve id c).1.isVetoed = true →
      store.blocking id.package id.version.toRelease c ≠ [] := AuditStore.blocking_ne_nil_of_isVetoed
  have hlater : Recalls mode calls (s.resolve id c).2 := h.resolve hid
  unfold suggest
  generalize s.resolve id c = asked at hviolations hsatisfied hvetoed hlater
  obtain ⟨answer, t⟩ := asked
  have hundenied : answer.violations = [] → store.Undenied id.key c := by
    intro hnone
    exact AuditStore.blocking_eq_nil_iff.1 (hviolations.symm.trans hnone)
  cases answer with
  | vetoed vs =>
    have hsame : vs = store.blocking id.package id.version.toRelease c := hviolations
    have hdenied : ¬store.Undenied id.key c :=
      fun hundenied => hvetoed rfl (AuditStore.blocking_eq_nil_iff.2 hundenied)
    exact hsame ▸ .blocked hdenied
  | satisfied path => exact .satisfied (hundenied rfl) (hsatisfied.1 rfl)
  | unreached =>
    have hgap : c ∉ store.satisfied mode id := fun hholds => by cases hsatisfied.2 hholds
    dsimp only
    split
    · next hout => exact .optedOut (hundenied rfl) hgap (AuditStore.optedOut_iff.1 hout)
    · next hwanted =>
      have hconsidered : Considered store mode id c (t.candidate cost id c required).1 :=
        hlater.considered_candidate hc hrequired (hundenied rfl) hgap
      have hmode : (t.candidate cost id c required).2.mode = mode := (hlater.candidate hid).mode_eq
      rw [hmode, if_pos hconsidered.closes]
      exact .proposed (hundenied rfl) hgap (fun hout => hwanted (AuditStore.optedOut_iff.2 hout))
        hconsidered

theorem Advice.isBlocked_iff [SetOrder] {answer : Suggestion} (h : Advice store mode id c answer) :
    answer.isBlocked = true ↔ ¬store.Undenied id.key c := by
  cases h with
  | blocked denied => exact iff_of_true rfl denied
  | satisfied undenied => exact iff_of_false Bool.false_ne_true (not_not.2 undenied)
  | optedOut undenied => exact iff_of_false Bool.false_ne_true (not_not.2 undenied)
  | proposed undenied => exact iff_of_false Bool.false_ne_true (not_not.2 undenied)

theorem Advice.isOpen_iff [SetOrder] {answer : Suggestion} (h : Advice store mode id c answer) :
    answer.isOpen = true ↔
      store.Undenied id.key c ∧ c ∉ store.satisfied mode id ∧ store.OptedOut id.key c := by
  cases h with
  | blocked denied => exact iff_of_false Bool.false_ne_true fun hopen => denied hopen.1
  | satisfied undenied holds => exact iff_of_false Bool.false_ne_true fun hopen => hopen.2.1 holds
  | optedOut undenied gap out => exact iff_of_true rfl ⟨undenied, gap, out⟩
  | proposed undenied gap wanted =>
    exact iff_of_false Bool.false_ne_true fun hopen => wanted hopen.2.2

theorem Advice.eq_satisfied_iff [SetOrder] {answer : Suggestion}
    (h : Advice store mode id c answer) :
    answer = .satisfied ↔ store.Undenied id.key c ∧ c ∈ store.satisfied mode id := by
  cases h with
  | blocked denied => exact iff_of_false nofun fun hholds => denied hholds.1
  | satisfied undenied holds => exact iff_of_true rfl ⟨undenied, holds⟩
  | optedOut undenied gap => exact iff_of_false nofun fun hholds => gap hholds.2
  | proposed undenied gap => exact iff_of_false nofun fun hholds => gap hholds.2

theorem Advice.exists_eq_proposed_iff [SetOrder] {answer : Suggestion}
    (h : Advice store mode id c answer) : (∃ a, answer = .proposed a) ↔
      store.Undenied id.key c ∧ c ∉ store.satisfied mode id ∧ ¬store.OptedOut id.key c := by
  cases h with
  | blocked denied => exact iff_of_false nofun fun hwanted => denied hwanted.1
  | satisfied undenied holds => exact iff_of_false nofun fun hwanted => hwanted.2.1 holds
  | optedOut undenied gap out => exact iff_of_false nofun fun hwanted => hwanted.2.2 out
  | proposed undenied gap wanted => exact iff_of_true ⟨_, rfl⟩ ⟨undenied, gap, wanted⟩

theorem Advice.considered [SetOrder] {a : SuggestedAudit}
    (h : Advice store mode id c (.proposed a)) : Considered store mode id c a := by
  cases h with
  | proposed _ _ _ considered => exact considered

/-- What a suggestion is, by what the records say, and what performing the suggested audit does. -/
structure Advises [SetOrder] (store : AuditStore model) (mode : ExemptionMode) (id : PackageId)
    (criterion : String) (answer : Suggestion) : Prop where
  blocked_iff : answer.isBlocked = true ↔
    ∃ r ∈ store.accepted, r.denies model id.package id.version.toRelease criterion = true
  satisfied_iff : answer = .satisfied ↔
    store.Undenied id.key criterion ∧ criterion ∈ store.satisfied mode id
  open_iff : answer.isOpen = true ↔ store.Undenied id.key criterion ∧
    criterion ∉ store.satisfied mode id ∧ store.OptedOut id.key criterion
  proposed_iff : (∃ a, answer = .proposed a) ↔ store.Undenied id.key criterion ∧
    criterion ∉ store.satisfied mode id ∧ ¬store.OptedOut id.key criterion
  performed : ∀ a, answer = .proposed a → a.package = id.package ∧ a.target = id.version ∧
    (store.withRecords [a.toRecord]).accepted = store.accepted ++ [a.toRecord] ∧
      criterion ∈ (store.withRecords [a.toRecord]).satisfied mode id
  not_discarded : ∀ a, answer ≠ .noCandidate (.wouldNotSatisfy a)
  closed_of_allow : mode = .allow → answer.isOpen = false

theorem Advice.advises [SetOrder] {answer : Suggestion} (h : Advice store mode id c answer)
    (hc : c ∈ model) : Advises store mode id c answer where
  blocked_iff := h.isBlocked_iff.trans AuditStore.not_undenied_iff
  satisfied_iff := h.eq_satisfied_iff
  open_iff := h.isOpen_iff
  proposed_iff := h.exists_eq_proposed_iff
  performed := fun a ha => by
    subst ha
    have hconsidered : Considered store mode id c a := h.considered
    exact ⟨hconsidered.package_eq, hconsidered.target_eq, hconsidered.accepted_eq,
      hconsidered.satisfied⟩
  not_discarded := fun a ha => by
    subst ha
    cases h
  closed_of_allow := fun hallow => by
    rw [← Bool.not_eq_true, h.isOpen_iff]
    intro hopen
    -- An exemption that opts out is admitted, so that the criterion is satisfied after all.
    obtain ⟨hundenied, hgap, ⟨e, he, hcovers⟩, _⟩ := hopen
    exact hgap (hallow ▸ AuditStore.satisfied_of_covers hc hundenied he hcovers)

/-- A new session suggests for every criterion of the model, and its suggestion is exact. -/
theorem suggestChecked_advises [SetOrder] (store : AuditStore model) (mode : ExemptionMode)
    (cost : CostMetric) (id : PackageId) (hc : c ∈ model) (hrequired : ∀ d ∈ required, d ∈ model) :
    ∃ answer s, (start store mode).suggestChecked cost id c required = .ok (answer, s) ∧
      Advises store mode id c answer := by
  have hcall : Recalls mode [Call.satisfied id.package (some id.version)] (start store mode) :=
    recalls_start.later _
  have hid : id.version ∈
      [Call.satisfied id.package (some id.version)].flatMap (Call.versionsOf id.package) := by
    simp [Call.versionsOf]
  have hadvice : Advice store mode id c ((start store mode).suggest cost id c required).1 :=
    hcall.advice hid hc hrequired
  have hcheck : model.check c = .ok () := model.check_eq_ok_iff.2 hc
  have hall : model.checkAll required.toList = .ok () :=
    CriteriaModel.checkAll_eq_ok_iff.2 hrequired
  refine ⟨_, ((start store mode).suggest cost id c required).2, ?_, hadvice.advises hc⟩
  by_cases hfull : ((start store mode).suggest cost id c required).1.isFullReview = true
  · simp only [suggestChecked, hcheck, hall, hfull]
    rfl
  · simp only [suggestChecked, hcheck, hfull]
    rfl

theorem suggestChecked_advises_reviewedTwice :
    safeToDeploy ∈ CriteriaModel.builtin ∧
      (∀ d ∈ NameSet.single safeToRun, d ∈ CriteriaModel.builtin) ∧
        ∃ answer s, (start reviewedTwice .deny).suggestChecked versionDistance
            ⟨"pad", { major := 2, minor := 0, patch := 0 }⟩ safeToDeploy (.single safeToRun) =
              .ok (answer, s) ∧
          Advises reviewedTwice .deny ⟨"pad", { major := 2, minor := 0, patch := 0 }⟩ safeToDeploy
            answer :=
  have hdeploy : safeToDeploy ∈ CriteriaModel.builtin := by decide +kernel
  have hrun : ∀ d ∈ NameSet.single safeToRun, d ∈ CriteriaModel.builtin := by decide +kernel
  ⟨hdeploy, hrun, suggestChecked_advises reviewedTwice .deny versionDistance _ hdeploy hrun⟩

end Session

end Vetting
