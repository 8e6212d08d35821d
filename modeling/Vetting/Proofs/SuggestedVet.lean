import Vetting.Proofs.BatchSuggestion
import Vetting.Proofs.StricterMode

/-! Performing all suggested audits. What was required before is satisfied then. The vet can still
fail, for an audit may go on from records that ask more of dependencies than was asked before. -/

namespace Vetting

namespace AuditStore

variable {model : CriteriaModel} {store : AuditStore model} {mode : ExemptionMode}
  {g : DependencyGraph} {policies : PolicyTable} {before after : Requirements} {report : Report}
  {S : SuggestionSet} {cost : CostMetric} {packages : NameSet}

theorem conflictsOf_toRecord_eq_nil [SetOrder] {a : SuggestedAudit} (ha : a.Promising store mode) :
    store.conflictsOf a.toRecord = [] := by
  rw [List.eq_nil_iff_forall_not_mem]
  intro x hx
  obtain ⟨_, htarget, hviolation, hmeets, hcontains⟩ := mem_conflictsOf.1 hx
  obtain ⟨hw, hpackage⟩ := mem_violationsFor.1 hviolation
  rw [SuggestedAudit.target?_toRecord, Option.some.injEq] at htarget
  rw [SuggestedAudit.package_toRecord] at hpackage
  rw [SuggestedAudit.criteria_toRecord, NameSet.meets_iff] at hmeets
  obtain ⟨c, hc, hdenied⟩ := hmeets
  obtain ⟨d, hd, hcd⟩ := model.mem_expand.1 hc
  -- The violation would deny what the audit is for.
  have hdenies : (AuditRecord.violation x.violation).denies model a.package
      a.target.toRelease d = true := by
    have hclosure : x.violation.criteria.meets (model.closure d) = true :=
      NameSet.meets_iff.2 ⟨c, hdenied, hcd⟩
    rw [← htarget] at hcontains
    simp [AuditRecord.denies, hpackage, hcontains, hclosure]
  have hundenied : store.Undenied a.key d := ha.undenied d hd
  have hnot := hundenied _ hw
  rw [SuggestedAudit.key, hdenies] at hnot
  cases hnot

/-- Promising audits contradict no violation, so that they add no conflict. -/
theorem conflictsIn_withRecords_eq_nil [SetOrder] (h : store.conflictsIn packages = [])
    (hpromising : ∀ a ∈ S.audits, a.Promising store mode) :
    (store.withRecords S.records).conflictsIn packages = [] := by
  have hpositive : ∀ r ∈ S.records, r.violation? = none :=
    fun r hr => SuggestionSet.violation?_of_mem_records hr
  rw [List.eq_nil_iff_forall_not_mem]
  intro x hx
  obtain ⟨p, hp, hxp⟩ := List.mem_flatMap.1 hx
  obtain ⟨r, hr, hxr⟩ := List.mem_flatMap.1 hxp
  obtain ⟨haccepted, hfiled⟩ := mem_recordsFor.1 hr
  obtain ⟨hrecord, htarget, hviolation, hmeets⟩ := mem_conflictsOf.1 hxr
  have hold : x ∈ store.conflictsOf r :=
    mem_conflictsOf.2 ⟨hrecord, htarget, mem_violationsFor_withRecords hpositive hviolation, hmeets⟩
  rcases mem_accepted_withRecords.1 haccepted with haccepted | ⟨hnew, _⟩
  · have hmem : x ∈ store.conflictsIn packages :=
      List.mem_flatMap.2 ⟨p, hp, List.mem_flatMap.2 ⟨r, mem_recordsFor.2 ⟨haccepted, hfiled⟩, hold⟩⟩
    rw [h] at hmem
    cases hmem
  · obtain ⟨a, ha, rfl⟩ := List.mem_map.1 hnew
    rw [conflictsOf_toRecord_eq_nil (hpromising a ha)] at hold
    cases hold

/-- Where nothing is blocked or left open, performing all audits satisfies all that was required. -/
theorem satisfied_of_settles [SetOrder]
    (hsettles : S.Settles store mode (store.report mode g before))
    (hblocked : S.blocked = []) (hunresolved : S.unresolved = []) :
    ∀ id ∈ g.thirdParty, ∀ c ∈ before.of id.key,
      c ∈ (store.withRecords S.records).satisfied mode id := by
  intro id hid c hc
  by_cases hheld : c ∈ store.satisfied mode id
  · exact satisfied_withRecords hheld fun r hr => SuggestionSet.violation?_of_mem_records hr
  · -- The criterion is a failure of its package, and an audit is all that is left for it.
    have hfails : ¬(store.judge mode id (before.of id.key)).passed = true :=
      fun hpassed => hheld (Verdict.passed_judge_iff.1 hpassed c hc)
    have hv : store.judge mode id (before.of id.key) ∈ (store.report mode g before).failing :=
      List.mem_filter.2 ⟨List.mem_map_of_mem hid, by simpa using hfails⟩
    have hf : (⟨c, store.explain mode id c⟩ : Failure) ∈
        (store.judge mode id (before.of id.key)).failures :=
      List.mem_map_of_mem (NameSet.mem_sdiff.2 ⟨hc, hheld⟩)
    have hblocks : ¬S.Blocks id c := by
      intro hx
      obtain ⟨r, hr, _⟩ := hx
      rw [hblocked] at hr
      cases hr
    have hopens : ¬S.LeavesOpen id c := by
      intro hx
      obtain ⟨r, hr, _⟩ := hx
      rw [hunresolved] at hr
      cases hr
    exact hsettles.satisfied id c (hsettles.covers _ hv _ hf hblocks hopens)

/-- Where audits are suggested for packages whose records ask nothing of some dependency, the
records transmit the same to it when all audits are performed. -/
theorem owed_withRecords [SetOrder] {e : Dependency} {required : NameSet}
    (h : (∃ a ∈ S.audits, a.package = e.parent.package) →
      ∀ r ∈ store.accepted, r.package = e.parent.package →
        r.dependencyCriteria.get? e.child.package = none) :
    ((store.withRecords S.records).propagator mode policies).owed g e.parent e.child e.kind
      required = (store.propagator mode policies).owed g e.parent e.child e.kind required := by
  by_cases hsuggested : ∃ a ∈ S.audits, a.package = e.parent.package
  · refine owed_eq_of_unnamed (h hsuggested) fun r hr hpackage => ?_
    rcases mem_accepted_withRecords.1 hr with hold | ⟨hnew, _⟩
    · exact h hsuggested r hold hpackage
    · obtain ⟨a, _, rfl⟩ := List.mem_map.1 hnew
      rw [SuggestedAudit.dependencyCriteria_toRecord]
      rfl
  · -- Nothing is added for the parent, so that its criteria are satisfied by the same records.
    have hother : ∀ r ∈ S.records, r.package ≠ e.parent.package := by
      intro r hr hpackage
      obtain ⟨a, ha, rfl⟩ := List.mem_map.1 hr
      rw [SuggestedAudit.package_toRecord] at hpackage
      exact hsuggested ⟨a, ha, hpackage⟩
    refine Propagator.owed_congr_override rfl rfl fun _ c _ => ?_
    have hsame : (store.withRecords S.records).resolve mode e.parent c =
        store.resolve mode e.parent c :=
      resolve_congr_recordsFor (recordsFor_withRecords hother) c
    show Propagator.asked? ((store.withRecords S.records).resolve mode e.parent c).path _ =
      Propagator.asked? (store.resolve mode e.parent c).path _
    rw [hsame]

/-- What performing all suggested audits does to a vet: the requirements before and after it, and
when the vet passes then. -/
structure Repairs [SetOrder] (store : AuditStore model) (mode : ExemptionMode) (g : DependencyGraph)
    (policies : PolicyTable) (S : SuggestionSet) (before after : Requirements) : Prop where
  before_eq : (store.propagator mode policies).propagate g = .ok before
  after_eq : ((store.withRecords S.records).propagator mode policies).propagate g = .ok after
  vet_eq : ((store.withRecords S.records).vetLogged mode g policies).outcome =
    .ok ((store.withRecords S.records).report mode g after)
  conflicts_eq_nil : ((store.withRecords S.records).report mode g after).conflicts = []
  kept : ∀ id c, c ∈ store.satisfied mode id → c ∈ (store.withRecords S.records).satisfied mode id
  repaired : ∀ id ∈ g.thirdParty, ∀ c ∈ before.of id.key,
    c ∈ (store.withRecords S.records).satisfied mode id
  success_iff : ((store.withRecords S.records).report mode g after).conclusion = .success ↔
    ∀ id ∈ g.thirdParty, ∀ c ∈ after.of id.key, c ∉ before.of id.key →
      c ∈ (store.withRecords S.records).satisfied mode id
  success_of_owed : (∀ e ∈ g.edges, g.isFirstParty e.parent.key = false →
    g.isFirstParty e.child.key = false →
      ∀ c ∈ ((store.withRecords S.records).propagator mode policies).owed g e.parent e.child e.kind
        (before.of e.parent.key), c ∈ before.of e.child.key) →
          ((store.withRecords S.records).report mode g after).conclusion = .success
  success_of_unnamed : (∀ e ∈ g.edges, g.isFirstParty e.parent.key = false →
    g.isFirstParty e.child.key = false → (∃ a ∈ S.audits, a.package = e.parent.package) →
      ∀ r ∈ store.accepted, r.package = e.parent.package →
        r.dependencyCriteria.get? e.child.package = none) →
          ((store.withRecords S.records).report mode g after).conclusion = .success

/-- Promising audits that satisfy all that was required repair a vet. -/
theorem repairs_of_promising [SetOrder] (hcheck : policies.check model = .ok ())
    (hbefore : (store.propagator mode policies).propagate g = .ok before)
    (hconflicts : store.conflictsIn g.packages = [])
    (hpromising : ∀ a ∈ S.audits, a.Promising store mode)
    (hrepaired : ∀ id ∈ g.thirdParty, ∀ c ∈ before.of id.key,
      c ∈ (store.withRecords S.records).satisfied mode id) :
    ∃ after, store.Repairs mode g policies S before after := by
  have hp : (store.propagator mode policies).Lawful := lawful_propagator hcheck
  have hq : ((store.withRecords S.records).propagator mode policies).Lawful :=
    lawful_propagator hcheck
  -- The graph is the same, so that there is a second run where there was a first.
  obtain ⟨horder, hprogress⟩ := Propagator.progress_of_propagate hp hbefore
  obtain ⟨after, hafter, _⟩ := Propagator.propagate_of_topological hq horder
  have hall := DependencyGraph.mem_of_topological horder
  have hnone : (store.withRecords S.records).conflictsIn g.packages = [] :=
    conflictsIn_withRecords_eq_nil hconflicts hpromising
  have hsuccess : ((store.withRecords S.records).report mode g after).conclusion = .success ↔
      ∀ id ∈ g.thirdParty, ∀ c ∈ after.of id.key, c ∉ before.of id.key →
        c ∈ (store.withRecords S.records).satisfied mode id :=
    success_iff_of_satisfied hnone hrepaired
  have howed : (∀ e ∈ g.edges, g.isFirstParty e.parent.key = false →
      g.isFirstParty e.child.key = false →
        ∀ c ∈ ((store.withRecords S.records).propagator mode policies).owed g e.parent e.child
          e.kind (before.of e.parent.key), c ∈ before.of e.child.key) →
            ((store.withRecords S.records).report mode g after).conclusion = .success := by
    intro howed
    refine hsuccess.2 fun id hid c hc hnew => absurd ?_ hnew
    exact Propagator.of_thirdParty_subset_of_owed hp hq rfl hbefore hafter howed id hid c hc
  refine ⟨after, ?_⟩
  constructor
  case before_eq => exact hbefore
  case after_eq => exact hafter
  case vet_eq =>
    rw [outcome_vetLogged]
    exact vet_of_propagate hcheck hafter
  case conflicts_eq_nil => exact hnone
  case kept =>
    intro id c hc
    exact satisfied_withRecords hc fun r hr => SuggestionSet.violation?_of_mem_records hr
  case repaired => exact hrepaired
  case success_iff => exact hsuccess
  case success_of_owed => exact howed
  case success_of_unnamed =>
    refine fun hunnamed => howed fun e he hparent hchild c hc => ?_
    rw [owed_withRecords (hunnamed e he hparent hchild)] at hc
    exact (hprogress.mem_of hp hall hchild).2 ⟨e, DependencyGraph.mem_dependents.2 ⟨he, rfl⟩, hc⟩

/-- Where a report has no conflicts and the suggestions for it leave nothing blocked or open,
performing them all repairs what failed. -/
theorem suggestions_repair [SetOrder] (h : (store.vetLogged mode g policies).outcome = .ok report)
    (hconflicts : report.conflicts = [])
    (hblocked : (report.suggestions store cost).blocked = [])
    (hunresolved : (report.suggestions store cost).unresolved = []) :
    ∃ before after,
      store.Repairs mode g policies (report.suggestions store cost) before after := by
  rw [outcome_vetLogged] at h
  obtain ⟨hcheck, before, hbefore, rfl⟩ := vet_eq_ok h
  have hknown : ∀ id ∈ g.thirdParty, ∀ c ∈ before.of id.key, c ∈ model :=
    known_of_propagate hcheck hbefore
  have hpromising : ∀ a ∈ ((store.report mode g before).suggestions store cost).audits,
      a.Promising store mode := promising_report hknown cost
  have hsettles : ((store.report mode g before).suggestions store cost).Settles store mode
      (store.report mode g before) := settles_report hknown cost
  have hrepaired := satisfied_of_settles hsettles hblocked hunresolved
  exact ⟨before, repairs_of_promising hcheck hbefore hconflicts hpromising hrepaired⟩

/-- An application that builds with a package, by way of another one. -/
def pipeline : DependencyGraph :=
  let id : String → PackageId := fun name => ⟨name, { major := 1, minor := 0, patch := 0 }⟩
  { members := [⟨id "app", { id := id "app", firstParty := true }⟩,
      ⟨id "base", { id := id "base" }⟩, ⟨id "middle", { id := id "middle" }⟩]
    edges := [⟨id "app", id "middle", .normal⟩, ⟨id "middle", id "base", .build⟩]
    keys_nodup := by decide +kernel
    node_key := by decide +kernel
    edges_distinct := by decide +kernel
    edges_closed := by decide +kernel }

/-- The middle package was reviewed before it changed, on the premise that its base is safe to
deploy. The base was reviewed for being run only. -/
def pipelineReviews : AuditStore .builtin :=
  .ofRecords .builtin [
    .full { package := "middle", version := { major := 0, minor := 9, patch := 0 }
            criteria := .single safeToDeploy
            dependencyCriteria := .ofList [("base", .single safeToDeploy)] },
    .full { package := "base", version := { major := 1, minor := 0, patch := 0 }
            criteria := .single safeToRun }]

theorem suggestions_repair_pipeline :
    ∃ report, (pipelineReviews.vetLogged .allow pipeline {}).outcome = .ok report ∧
      report.conclusion = .failVetting ∧ report.conflicts = [] ∧
        (report.suggestions pipelineReviews versionDistance).blocked = [] ∧
          (report.suggestions pipelineReviews versionDistance).unresolved = [] ∧
            ∃ before after, pipelineReviews.Repairs .allow pipeline {}
              (report.suggestions pipelineReviews versionDistance) before after := by
  obtain ⟨report, hvet, hfine⟩ : ∃ report,
      (pipelineReviews.vetLogged .allow pipeline {}).outcome = .ok report ∧
        (decide (report.conclusion = .failVetting) && report.conflicts.isEmpty &&
          (report.suggestions pipelineReviews versionDistance).blocked.isEmpty &&
            (report.suggestions pipelineReviews versionDistance).unresolved.isEmpty) = true :=
    exists_report_of_any (by decide +kernel)
  simp only [Bool.and_eq_true, decide_eq_true_eq, List.isEmpty_iff] at hfine
  obtain ⟨⟨⟨hfails, hconflicts⟩, hblocked⟩, hunresolved⟩ := hfine
  exact ⟨report, hvet, hfails, hconflicts, hblocked, hunresolved,
    suggestions_repair hvet hconflicts hblocked hunresolved⟩

/-- Performing all suggested audits need not make a vet pass: the change of the middle package goes
on from a review that asks more of its base than anybody asked before. -/
theorem exists_vet_that_fails_with_all_suggestions :
    ¬∀ (model : CriteriaModel) (store : AuditStore model) (g : DependencyGraph)
      (policies : PolicyTable) (mode : ExemptionMode) (cost : CostMetric) (report : Report),
      (store.vetLogged mode g policies).outcome = .ok report → report.conflicts = [] →
        (report.suggestions store cost).blocked = [] →
          (report.suggestions store cost).unresolved = [] →
            ∃ later, ((store.withRecords (report.suggestions store cost).records).vetLogged mode g
                policies).outcome = .ok later ∧ later.conclusion = .success := by
  intro hclaim
  obtain ⟨report, hvet, hfine⟩ : ∃ report,
      (pipelineReviews.vetLogged .allow pipeline {}).outcome = .ok report ∧
        (report.conflicts.isEmpty &&
          (report.suggestions pipelineReviews versionDistance).blocked.isEmpty &&
            (report.suggestions pipelineReviews versionDistance).unresolved.isEmpty &&
              decide (((pipelineReviews.withRecords (report.suggestions pipelineReviews
                versionDistance).records).vetLogged .allow pipeline {}).outcome.toOption.map
                  Report.conclusion = some .failVetting)) = true :=
    exists_report_of_any (by decide +kernel)
  simp only [Bool.and_eq_true, decide_eq_true_eq, List.isEmpty_iff] at hfine
  obtain ⟨⟨⟨hconflicts, hblocked⟩, hunresolved⟩, hfails⟩ := hfine
  obtain ⟨later, hlater, hpass⟩ :=
    hclaim _ _ _ _ _ versionDistance report hvet hconflicts hblocked hunresolved
  rw [hlater] at hfails
  have hfailed : later.conclusion = .failVetting := Option.some.inj hfails
  rw [hpass] at hfailed
  cases hfailed

end AuditStore

end Vetting
