import Vetting.Proofs.SuggestedCriteria

/-! Certifying a suggested audit. Nobody says what for, so the criteria are computed anew, and with
all exemptions counted: what an exemption covers is not claimed for being suggested. -/

namespace Vetting

namespace AuditStore

variable {model : CriteriaModel} {store : AuditStore model} {mode : ExemptionMode}
  {package default c : String} {start : Option Version} {target : Version} {criteria : NameSet}
  {who : List String} {notes : Json}

/-- The criteria that a review can start from: all of them where it starts from nothing. -/
def base [SetOrder] (store : AuditStore model) (mode : ExemptionMode) (package : String) :
    Option Version → NameSet
  | some v => store.satisfied mode ⟨package, v⟩
  | none => model.names

/-- The criteria that hold where a review starts, that do not hold where it ends, and that nothing
denies there. -/
def gain [SetOrder] (store : AuditStore model) (mode : ExemptionMode) (package : String)
    (start : Option Version) (target : Version) : NameSet :=
  (store.base mode package start \ store.satisfied mode ⟨package, target⟩).filter fun c =>
    (store.blocking package target.toRelease c).isEmpty

theorem mem_gain [SetOrder] : c ∈ store.gain mode package start target ↔
    c ∈ model ∧ (∀ v, start = some v → c ∈ store.satisfied mode ⟨package, v⟩) ∧
      c ∉ store.satisfied mode ⟨package, target⟩ ∧
        store.Undenied ⟨package, target.toRelease⟩ c := by
  let id : PackageId := ⟨package, target⟩
  have hundenied : (store.blocking id.package id.version.toRelease c).isEmpty = true ↔
      store.Undenied id.key c := isEmpty_blocking_iff
  rw [gain, NameSet.mem_filter, NameSet.mem_sdiff, hundenied, and_assoc]
  cases start with
  | none =>
    exact and_congr_right fun _ =>
      ⟨fun h => ⟨fun v hv => (Option.some_ne_none v hv.symm).elim, h⟩, And.right⟩
  | some v =>
    constructor
    · intro hx
      obtain ⟨hheld, hrest⟩ := hx
      have hc : c ∈ model := (mem_satisfied_iff_chain.1 hheld).1
      exact ⟨hc, fun w hw => Option.some.inj hw ▸ hheld, hrest⟩
    · intro hx
      obtain ⟨_, hheld, hrest⟩ := hx
      exact ⟨hheld v rfl, hrest⟩

end AuditStore

/-- What a session finds useful is the gain of a review, up to what it implies. -/
theorem Session.Recalls.usefulCriteria_eq [SetOrder] {model : CriteriaModel}
    {store : AuditStore model}
    {mode : ExemptionMode} {calls : List Call} {s : Session store} (h : Recalls mode calls s)
    (package : String) (start : Option Version) (target : Version) :
    (s.usefulCriteria package start target).1 =
      model.minimize (store.gain mode package start target) := by
  cases start with
  | none => rw [Session.usefulCriteria, AuditStore.gain, AuditStore.base, ← h.satisfied_eq]
  | some v =>
    have hlater : Recalls mode _ (s.satisfied ⟨package, v⟩).2 :=
      (h.later (.satisfied package (some v))).satisfied (by simp [Call.versionsOf])
    rw [Session.usefulCriteria, AuditStore.gain, AuditStore.base, ← h.satisfied_eq,
      ← hlater.satisfied_eq]

namespace AuditStore

variable {model : CriteriaModel} {store : AuditStore model} {mode : ExemptionMode}
  {package default c : String} {start : Option Version} {target : Version} {criteria : NameSet}
  {who : List String} {notes : Json}

theorem usefulCriteria_eq [SetOrder] (store : AuditStore model) (mode : ExemptionMode)
    (package : String) (start : Option Version) (target : Version) :
    store.usefulCriteria mode package start target =
      model.minimize (store.gain mode package start target) :=
  Session.recalls_start.usefulCriteria_eq package start target

theorem known_criteriaToCertify [SetOrder] (hdefault : default ∈ model)
    (hc : c ∈ store.criteriaToCertify default package start target) : c ∈ model := by
  unfold criteriaToCertify at hc
  dsimp only at hc
  split at hc
  · rwa [NameSet.mem_single.1 hc]
  · rw [usefulCriteria_eq] at hc
    exact (mem_gain.1 (model.mem_minimize.1 hc).1).1

theorem exists_mem_criteriaToCertify [SetOrder] (store : AuditStore model)
    (default package : String) (start : Option Version) (target : Version) :
    ∃ c, c ∈ store.criteriaToCertify default package start target := by
  unfold criteriaToCertify
  dsimp only
  split
  · exact ⟨default, NameSet.mem_single.2 rfl⟩
  · next hsome => exact NameSet.isEmpty_eq_false_iff.1 (by simpa using hsome)

/-- What holds where a review starts and is wanting where it ends, with all exemptions counted, is
claimed by the review. -/
theorem mem_expand_criteriaToCertify [SetOrder] (hc : c ∈ model)
    (hstart : ∀ v, start = some v → c ∈ store.satisfied .allow ⟨package, v⟩)
    (hgap : c ∉ store.satisfied .allow ⟨package, target⟩)
    (hundenied : store.Undenied ⟨package, target.toRelease⟩ c) :
    c ∈ model.expand (store.criteriaToCertify default package start target) := by
  have hmem : c ∈ store.gain .allow package start target :=
    mem_gain.2 ⟨hc, hstart, hgap, hundenied⟩
  obtain ⟨d, hd, hdc⟩ := model.exists_mem_minimize hmem
  rw [← usefulCriteria_eq] at hd
  have hsome : (store.usefulCriteria .allow package start target).isEmpty = false :=
    NameSet.isEmpty_eq_false_iff.2 ⟨d, hd⟩
  rw [criteriaToCertify, hsome]
  exact model.mem_expand.2 ⟨d, hd, hdc⟩

/-- A valid review makes the release where it ends hold a criterion that nothing denies there and
that holds where it starts, if it claims what implies that criterion. -/
theorem satisfied_withRecords_reviewRecord [SetOrder]
    (hvalid : (reviewRecord package start target criteria who notes).fault? model package = none)
    (hstart : ∀ v, start = some v → c ∈ store.satisfied mode ⟨package, v⟩)
    (hundenied : store.Undenied ⟨package, target.toRelease⟩ c)
    (hc : c ∈ model.expand criteria) :
    c ∈ (store.withRecords [reviewRecord package start target criteria who notes]).satisfied mode
      ⟨package, target⟩ := by
  obtain ⟨d, hd, hcd⟩ := model.mem_expand.1 hc
  obtain ⟨hpackage, _, hknown, _⟩ := AuditRecord.fault?_eq_none_iff.1 hvalid
  have hknownc : c ∈ model := by
    rw [criteria_reviewRecord] at hknown
    exact model.mem_of_mem_closure (hknown d hd) hcd
  have hcounts : (store.withRecords [reviewRecord package start target criteria who
      notes]).Counts mode package c (reviewRecord package start target criteria who notes) := by
    refine ⟨mem_accepted_withRecords.2 (.inr ⟨List.mem_singleton.2 rfl, ?_⟩), hpackage,
      admits_reviewRecord, d, ?_, hcd⟩
    · rwa [hpackage]
    · rwa [criteria_reviewRecord]
  have hfree : (store.withRecords [reviewRecord package start target criteria who
      notes]).Undenied ⟨package, target.toRelease⟩ c := by
    refine hundenied.withRecords fun r hr => ?_
    rw [List.mem_singleton.1 hr]
    exact violation?_reviewRecord
  refine mem_satisfied_iff_chain.2 ⟨hknownc, hfree, ?_⟩
  -- The record is a chain of its own or goes on with one for the release where it starts.
  cases start with
  | none => exact ⟨_, .vouched hcounts rfl⟩
  | some v =>
    obtain ⟨_, _, chain, hchain⟩ := mem_satisfied_iff_chain.1 (hstart v rfl)
    exact ⟨_, .led (hchain.withRecords _) hcounts ⟨rfl, rfl⟩⟩

/-- A review that claims nothing that implies a criterion does not make it hold anywhere. -/
theorem satisfied_of_withRecords_reviewRecord [SetOrder] {id : PackageId}
    (hc : c ∈ (store.withRecords [reviewRecord package start target criteria who
      notes]).satisfied mode id)
    (hnot : c ∉ model.expand criteria) : c ∈ store.satisfied mode id := by
  obtain ⟨hknown, hundenied, chain, hchain⟩ := mem_satisfied_iff_chain.1 hc
  refine mem_satisfied_iff_chain.2 ⟨hknown, ?_, chain, hchain.imp fun r counts => ?_⟩
  · exact fun r hr => hundenied r (mem_accepted_withRecords.2 (.inl hr))
  · rcases mem_accepted_withRecords.1 counts.accepted with hold | ⟨hnew, _⟩
    · exact ⟨hold, counts.filed, counts.admitted, counts.implies⟩
    · obtain ⟨d, hd, hcd⟩ := counts.implies
      rw [List.mem_singleton.1 hnew, criteria_reviewRecord] at hd
      exact absurd (model.mem_expand.2 ⟨d, hd, hcd⟩) hnot

variable {g : DependencyGraph} {policies : PolicyTable} {report : Report} {cost : CostMetric}
  {a : SuggestedAudit}

/-- The record of a suggested audit that is certified without saying what for. -/
def certification [SetOrder] (store : AuditStore model) (default : String) (a : SuggestedAudit)
    (who : List String) (notes : Json) : AuditRecord :=
  reviewRecord a.package a.start a.target
    (store.criteriaToCertify default a.package a.start a.target) who notes

/-- A suggested audit that is certified makes a valid record. It closes the gaps for exactly what it
claims, and it claims all that the audit is suggested for but what holds already where it ends when
all exemptions count. Where all exemptions count, that is nothing. -/
theorem certification_closes [SetOrder] (h : (store.vetLogged mode g policies).outcome = .ok report)
    (ha : a ∈ (report.suggestions store cost).audits) (who : List String) (notes : Json) :
    let r := store.certification policies.default a who notes
    r.fault? model a.package = none ∧
      (∀ c ∈ a.criteria, c ∈ (store.withRecords [r]).satisfied mode ⟨a.package, a.target⟩ ↔
        c ∈ model.expand r.criteria) ∧
      (∀ c ∈ a.criteria, c ∉ store.satisfied .allow ⟨a.package, a.target⟩ →
        c ∈ (store.withRecords [r]).satisfied mode ⟨a.package, a.target⟩) ∧
      (mode = .allow → ∀ c ∈ a.criteria,
        c ∈ (store.withRecords [r]).satisfied mode ⟨a.package, a.target⟩) := by
  intro r
  rw [outcome_vetLogged] at h
  obtain ⟨hcheck, requirements, hrequirements, rfl⟩ := vet_eq_ok h
  have hknown : ∀ id ∈ g.thirdParty, ∀ c ∈ requirements.of id.key, c ∈ model :=
    known_of_propagate hcheck hrequirements
  have hpromising : a.Promising store mode := promising_report hknown cost a ha
  have hwanting : a.Wanting store mode := wanting_report hknown a ha
  have hdefault : policies.default ∈ model := (PolicyTable.check_eq_ok_iff.1 hcheck).1
  have hvalid : r.fault? model a.package = none :=
    fault?_reviewRecord (exists_mem_criteriaToCertify store _ _ _ _)
      (fun _ hc => known_criteriaToCertify hdefault hc) hpromising.moves
  have hclaimed : r.criteria =
      store.criteriaToCertify policies.default a.package a.start a.target := criteria_reviewRecord
  have hcloses : ∀ c ∈ a.criteria,
      c ∈ (store.withRecords [r]).satisfied mode ⟨a.package, a.target⟩ ↔
        c ∈ model.expand r.criteria := by
    intro c hc
    rw [hclaimed]
    constructor
    · intro hmet
      by_contra hnot
      exact hwanting c hc (satisfied_of_withRecords_reviewRecord hmet hnot)
    · exact satisfied_withRecords_reviewRecord hvalid
        (fun v hv => hpromising.based v hv c hc) (hpromising.undenied c hc)
  have hgap : ∀ c ∈ a.criteria, c ∉ store.satisfied .allow ⟨a.package, a.target⟩ →
      c ∈ (store.withRecords [r]).satisfied mode ⟨a.package, a.target⟩ := by
    intro c hc hopen
    have hbased : ∀ v, a.start = some v → c ∈ store.satisfied .allow ⟨a.package, v⟩ := by
      intro v hv
      have hheld := hpromising.based v hv c hc
      cases mode with
      | allow => exact hheld
      | confirmedOnly => exact satisfied_of_stricterThan (by decide) hheld
      | deny => exact satisfied_of_stricterThan (by decide) hheld
    rw [hcloses c hc, hclaimed]
    exact mem_expand_criteriaToCertify (hpromising.known c hc) hbased hopen
      (hpromising.undenied c hc)
  refine ⟨hvalid, hcloses, hgap, ?_⟩
  rintro rfl c hc
  exact hgap c hc (hwanting c hc)

theorem certification_closes_pipeline :
    ∃ report, (pipelineReviews.vetLogged .allow pipeline {}).outcome = .ok report ∧
      ∃ a ∈ (report.suggestions pipelineReviews versionDistance).audits, a.isDelta = true ∧
        (∃ c, c ∈ a.criteria) ∧ ∀ c ∈ a.criteria, c ∈ (pipelineReviews.withRecords
          [pipelineReviews.certification safeToDeploy a [] .null]).satisfied .allow
            ⟨a.package, a.target⟩ := by
  obtain ⟨report, hvet, haudits⟩ : ∃ report,
      (pipelineReviews.vetLogged .allow pipeline {}).outcome = .ok report ∧
        ((report.suggestions pipelineReviews versionDistance).audits.any fun a =>
          a.isDelta && !a.criteria.isEmpty) = true := exists_report_of_any (by decide +kernel)
  obtain ⟨a, ha, hany⟩ := List.any_eq_true.1 haudits
  rw [Bool.and_eq_true, Bool.not_eq_true'] at hany
  obtain ⟨_, _, _, hall⟩ := certification_closes hvet ha [] .null
  exact ⟨report, hvet, a, ha, hany.1, NameSet.isEmpty_eq_false_iff.1 hany.2, hall rfl⟩

/-- The base of the workbench is exempted from review. -/
def exemptedBase : AuditStore .builtin :=
  .ofRecords .builtin [
    .exemption { package := "base", version := { major := 1, minor := 0, patch := 0 }
                 criteria := .single safeToDeploy }]

/-- The application ships its dependencies, though nothing else is shipped by default. -/
def shippedApp : PolicyTable where
  policies := (∅ : NameMap Policy).insert "app" { criteria := some (.single safeToDeploy) }
  default := safeToRun

/-- A suggested audit that is certified need not close its gap where exemptions do not count: what
the exemption covers is not useful to claim. -/
theorem exists_certification_that_leaves_its_gap :
    ¬∀ (model : CriteriaModel) (store : AuditStore model) (mode : ExemptionMode)
      (g : DependencyGraph) (policies : PolicyTable) (cost : CostMetric) (report : Report),
      (store.vetLogged mode g policies).outcome = .ok report →
        ∀ a ∈ (report.suggestions store cost).audits, ∀ c ∈ a.criteria,
          c ∈ (store.withRecords [store.certification policies.default a [] .null]).satisfied mode
            ⟨a.package, a.target⟩ := by
  intro hclaim
  obtain ⟨report, hvet, haudits⟩ : ∃ report,
      (exemptedBase.vetLogged .deny workbench shippedApp).outcome = .ok report ∧
        ((report.suggestions exemptedBase versionDistance).audits.any fun a =>
          decide (∃ c ∈ a.criteria.toList, c ∉ (exemptedBase.withRecords
            [exemptedBase.certification shippedApp.default a [] .null]).satisfied .deny
              ⟨a.package, a.target⟩)) = true := exists_report_of_any (by decide +kernel)
  obtain ⟨a, ha, hopen⟩ := List.any_eq_true.1 haudits
  obtain ⟨c, hc, hnot⟩ := of_decide_eq_true hopen
  exact hnot (hclaim _ _ _ _ _ versionDistance report hvet a ha c hc)

end AuditStore

end Vetting
