import Vetting.Proofs.AdoptedRecords
import Vetting.Proofs.BatchSuggestion

/-! Reports are coherent. A verdict tells in several ways whether a package passed, and they agree;
every failure has the one reason that fits, and the conclusion is what the verdicts come to. -/

namespace Vetting

theorem DependencyGraph.nodup_thirdParty {g : DependencyGraph} :
    (g.thirdParty.map PackageId.key).Nodup := by
  have hsorted : (g.sorted.map Member.key).Nodup :=
    ((sortBy_perm _ g.members).map Member.key).nodup_iff.2 g.keys_nodup
  have hnodes : (g.nodes.map fun n => n.id.key) = g.sorted.map Member.key := by
    rw [nodes, List.map_map]
    exact List.map_congr_left fun m hm => g.node_key m (mem_sortBy.1 hm)
  rw [thirdParty, List.map_map]
  refine (hnodes ▸ hsorted).sublist ?_
  exact List.filter_sublist.map _

namespace AuditStore

variable {model : CriteriaModel} {store : AuditStore model} {mode : ExemptionMode}
  {id : PackageId} {key : PackageKey} {required : NameSet} {c : String}

/-- Whether an accepted violation that covers a version denies it what a criterion implies. -/
def Vetoed (store : AuditStore model) (key : PackageKey) (criterion : String) : Prop :=
  ∃ w, .violation w ∈ store.accepted ∧ w.package = key.package ∧
    w.versions.contains key.release = true ∧ ∃ d ∈ w.criteria, d ∈ model.closure criterion

theorem vetoed_iff : store.Vetoed key c ↔ ¬store.Undenied key c := by
  rw [Undenied, AuditRecord.forall_denies_eq_false_iff]
  constructor
  · intro hx hnone
    obtain ⟨w, hw, hfiled, hrange, hdenied⟩ := hx
    exact hnone w hw hfiled hrange hdenied
  · intro hsome
    by_contra hnone
    apply hsome
    intro w hw hfiled hrange hdenied
    exact hnone ⟨w, hw, hfiled, hrange, hdenied⟩

theorem blocking_eq_nil_iff_not_vetoed :
    store.blocking id.package id.version.toRelease c = [] ↔ ¬store.Vetoed id.key c := by
  rw [blocking_eq_nil_iff, vetoed_iff, not_not]
  exact Iff.rfl

theorem undenied_of_mem_satisfied [SetOrder] (h : c ∈ store.satisfied mode id) :
    store.Undenied id.key c :=
  (mem_satisfied_iff_chain.1 h).2.1

/-- A denial is the first reason why a criterion is not satisfied; exemptions are looked at next. -/
theorem explain_of_undenied [SetOrder] (hundenied : store.Undenied id.key c)
    (hunmet : c ∉ store.satisfied mode id) : store.explain mode id c =
      if c ∈ store.satisfied .allow id then .exemptionExcluded else .noAuditPath := by
  have hmode : c ∈ store.satisfied .allow id → mode ≠ .allow := by
    intro hallow hmode
    rw [hmode] at hunmet
    exact hunmet hallow
  unfold explain
  cases hresolve : store.resolve mode id c with
  | vetoed vs => exact absurd hundenied (resolve_eq_vetoed hresolve).2
  | satisfied path => simp only [and_iff_right_of_imp hmode]
  | unreached => simp only [and_iff_right_of_imp hmode]

theorem classify_ne_unvetted [SetOrder] : store.classify mode id required ≠ .unvetted := by
  unfold classify
  split
  · exact VettingStatus.noConfusion
  · split
    · exact VettingStatus.noConfusion
    · exact VettingStatus.noConfusion

theorem classify_eq_fully_iff [SetOrder] : store.classify mode id required = .fully ↔
    ∀ c ∈ required, c ∈ store.satisfied .deny id := by
  rw [← NameSet.within_iff, classify]
  split
  · next hwithin => exact iff_of_true rfl hwithin
  · next hwithin =>
    refine iff_of_false ?_ hwithin
    split
    · exact VettingStatus.noConfusion
    · exact VettingStatus.noConfusion

end AuditStore

/-- The one reason that fits a failure: a violation denies the criterion, or only exemptions that
do not count would satisfy it, or nothing would. -/
structure Failure.Explained [SetOrder] {model : CriteriaModel} (store : AuditStore model)
    (id : PackageId) (f : Failure) : Prop where
  violations_eq : f.reason.violations =
    store.blocking id.package id.version.toRelease f.criterion
  violation_iff : (∃ vs, f.reason = .violation vs) ↔ store.Vetoed id.key f.criterion
  excluded_iff : f.reason = .exemptionExcluded ↔
    ¬store.Vetoed id.key f.criterion ∧ f.criterion ∈ store.satisfied .allow id
  noPath_iff : f.reason = .noAuditPath ↔
    ¬store.Vetoed id.key f.criterion ∧ f.criterion ∉ store.satisfied .allow id

namespace Verdict

/-- What a verdict says of one package hangs together. -/
structure Coherent [SetOrder] {model : CriteriaModel} (store : AuditStore model)
    (mode : ExemptionMode) (v : Verdict) : Prop where
  satisfied_eq : v.satisfied = store.satisfied mode v.id
  passed_iff_unmet : v.passed = true ↔ v.unmet = ∅
  passed_iff_failures : v.passed = true ↔ v.failures = []
  passed_iff_status : v.passed = true ↔ v.status ≠ .unvetted
  criteria_failures : v.failures.map Failure.criterion = v.unmet.toList
  explained : ∀ f ∈ v.failures, f.Explained store v.id
  fully_iff : v.passed = true →
    (v.status = .fully ↔ ∀ c ∈ v.required, c ∈ store.satisfied .deny v.id)

variable {model : CriteriaModel} {store : AuditStore model} {mode : ExemptionMode}
  {id : PackageId} {required : NameSet} {c : String} {v : Verdict}

theorem explained_explain [SetOrder] (hunmet : c ∉ store.satisfied mode id) :
    (⟨c, store.explain mode id c⟩ : Failure).Explained store id := by
  by_cases hundenied : store.Undenied id.key c
  · have hfree : ¬store.Vetoed id.key c := fun h => AuditStore.vetoed_iff.1 h hundenied
    have hblocking : store.blocking id.package id.version.toRelease c = [] :=
      AuditStore.blocking_eq_nil_iff_not_vetoed.2 hfree
    have hreason := AuditStore.explain_of_undenied hundenied hunmet
    by_cases hallow : c ∈ store.satisfied .allow id
    · rw [if_pos hallow] at hreason
      constructor <;> simp [hreason, hfree, hallow, hblocking, FailureReason.violations]
    · rw [if_neg hallow] at hreason
      constructor <;> simp [hreason, hfree, hallow, hblocking, FailureReason.violations]
  · have hvetoed : store.Vetoed id.key c := AuditStore.vetoed_iff.2 hundenied
    obtain ⟨vs, hreason⟩ : ∃ vs, store.explain mode id c = .violation vs :=
      AuditStore.exists_explain_eq_violation hundenied
    have hblocking := (AuditStore.explain_eq_violation hreason).1
    constructor <;> simp [hreason, hvetoed, ← hblocking, FailureReason.violations]

theorem unmet_eq_empty_iff : v.unmet = ∅ ↔ ∀ c ∈ v.required, c ∈ v.satisfied := by
  rw [NameSet.ext_iff]
  simp [mem_unmet]

theorem failures_eq_nil_iff {v : Verdict}
    (h : v.failures.map Failure.criterion = v.unmet.toList) : v.failures = [] ↔ v.unmet = ∅ := by
  rw [← List.map_eq_nil_iff (f := Failure.criterion), h]
  constructor
  · intro hnil
    ext c
    rw [← NameSet.mem_toList, hnil]
    exact Iff.rfl
  · intro hempty
    rw [hempty]
    rfl

theorem criteria_failures_judge [SetOrder] :
    (store.judge mode id required).failures.map Failure.criterion =
    (store.judge mode id required).unmet.toList := by
  rw [AuditStore.judge, List.map_map]
  exact List.map_id _

theorem status_judge_iff [SetOrder] : (store.judge mode id required).status ≠ .unvetted ↔
    (store.judge mode id required).failures = [] := by
  rw [← List.isEmpty_iff]
  unfold AuditStore.judge
  dsimp only
  split
  · next hempty => exact iff_of_true AuditStore.classify_ne_unvetted hempty
  · next hsome => exact iff_of_false (fun h => h rfl) hsome

theorem coherent_judge [SetOrder] : (store.judge mode id required).Coherent store mode := by
  have hunmet : (store.judge mode id required).passed = true ↔
      (store.judge mode id required).unmet = ∅ := by
    rw [passed_judge_iff, unmet_eq_empty_iff]
    exact Iff.rfl
  have hfailures : (store.judge mode id required).passed = true ↔
      (store.judge mode id required).failures = [] :=
    hunmet.trans (failures_eq_nil_iff criteria_failures_judge).symm
  refine ⟨rfl, hunmet, hfailures, hfailures.trans status_judge_iff.symm, criteria_failures_judge,
    fun f hf => ?_, fun hpassed => ?_⟩
  · obtain ⟨c, hc, rfl⟩ := List.mem_map.1 hf
    exact explained_explain (NameSet.mem_sdiff.1 hc).2
  · have hstatus : (store.judge mode id required).status = store.classify mode id required :=
      if_pos (List.isEmpty_iff.2 (hfailures.1 hpassed))
    rw [hstatus]
    exact AuditStore.classify_eq_fully_iff

theorem foldl_unseen_eq_nil {l seen : List Violation} : l.foldl (fun seen w =>
    if seen.any fun u => w.agrees u then seen else seen ++ [w]) seen = [] ↔
      seen = [] ∧ l = [] := by
  induction l generalizing seen with
  | nil => simp
  | cons w ws ih =>
    rw [List.foldl_cons, ih]
    cases seen with
    | nil => simp
    | cons u us =>
      split
      · simp
      · simp

theorem violations_eq_nil_iff : v.violations = [] ↔ ∀ f ∈ v.failures, f.reason.violations = [] := by
  rw [violations, foldl_unseen_eq_nil, List.flatMap_eq_nil_iff]
  exact and_iff_right rfl

theorem Coherent.mem_unmet_iff [SetOrder] (h : v.Coherent store mode) :
    c ∈ v.unmet ↔ ∃ f ∈ v.failures, f.criterion = c := by
  rw [← NameSet.mem_toList, ← h.criteria_failures, List.mem_map]

theorem Coherent.violations_eq_nil_iff [SetOrder] (h : v.Coherent store mode) :
    v.violations = [] ↔ ∀ c ∈ v.required, ¬store.Vetoed v.id.key c := by
  have hfailure : ∀ f ∈ v.failures,
      f.reason.violations = [] ↔ ¬store.Vetoed v.id.key f.criterion := by
    intro f hf
    rw [(h.explained f hf).violations_eq]
    exact AuditStore.blocking_eq_nil_iff_not_vetoed
  rw [Verdict.violations_eq_nil_iff]
  constructor
  · intro hnone c hc hvetoed
    -- What is satisfied is not denied, so a criterion that is denied has a failure of its own.
    have hgap : c ∉ v.satisfied := by
      intro hsatisfied
      rw [h.satisfied_eq] at hsatisfied
      exact AuditStore.vetoed_iff.1 hvetoed (AuditStore.undenied_of_mem_satisfied hsatisfied)
    obtain ⟨f, hf, rfl⟩ := h.mem_unmet_iff.1 (mem_unmet.2 ⟨hc, hgap⟩)
    exact (hfailure f hf).1 (hnone f hf) hvetoed
  · intro hnone f hf
    have hunmet : f.criterion ∈ v.unmet := h.mem_unmet_iff.2 ⟨f, hf, rfl⟩
    exact (hfailure f hf).2 (hnone _ (mem_unmet.1 hunmet).1)

/-- A verdict counts once: under a status if the package passes, and as failing if not. -/
theorem count_eq_one (h : v.passed = true → v.status ≠ .unvetted) :
    (if !v.passed then 1 else 0) + (if v.passed && v.status == .fully then 1 else 0) +
        (if v.passed && v.status == .partially then 1 else 0) +
        (if v.passed && v.status == .withExemptions then 1 else 0) = 1 := by
  cases hpassed : v.passed with
  | false => rfl
  | true =>
    cases hstatus : v.status with
    | unvetted => exact absurd hstatus (h hpassed)
    | fully => rfl
    | partially => rfl
    | withExemptions => rfl

end Verdict

namespace Report

/-- Whether something is denied: a claim conflicts with a violation, or a package is denied a
criterion that is required of it. -/
def Denied {model : CriteriaModel} (store : AuditStore model) (r : Report) : Prop :=
  r.conflicts ≠ [] ∨ ∃ v ∈ r.verdicts, ∃ c ∈ v.required, store.Vetoed v.id.key c

def Wanting (r : Report) : Prop := ∃ v ∈ r.verdicts, ∃ c, c ∈ v.unmet

/-- What a report says of a graph hangs together: there is one verdict on each third-party package,
about what is required of it, and the conclusion is what the verdicts and conflicts come to. -/
structure Coherent [SetOrder] {model : CriteriaModel} (store : AuditStore model)
    (mode : ExemptionMode)
    (g : DependencyGraph) (requirements : Requirements) (r : Report) : Prop where
  judged_once : (r.verdicts.map fun v => v.id.key).Nodup
  judged_iff : ∀ k, k ∈ r.verdicts.map (fun v => v.id.key) ↔
    k ∈ g.members.map Member.key ∧ g.isFirstParty k = false
  required_eq : ∀ v ∈ r.verdicts, v.required = requirements.of v.id.key
  verdicts_coherent : ∀ v ∈ r.verdicts, v.Coherent store mode
  failViolation_iff : r.conclusion = .failViolation ↔ r.Denied store
  failVetting_iff : r.conclusion = .failVetting ↔ ¬r.Denied store ∧ r.Wanting
  success_iff : r.conclusion = .success ↔ ¬r.Denied store ∧ ¬r.Wanting
  counts_sum : r.failing.length + r.count .fully + r.count .partially + r.count .withExemptions =
    r.verdicts.length

variable {model : CriteriaModel} {store : AuditStore model} {mode : ExemptionMode}
  {g : DependencyGraph} {requirements : Requirements} {r : Report}

theorem failing_eq_nil_iff [SetOrder] (h : ∀ v ∈ r.verdicts, v.Coherent store mode) :
    r.failing = [] ↔ ¬r.Wanting := by
  have hpassed : ∀ v ∈ r.verdicts, v.passed = true ↔ ¬∃ c, c ∈ v.unmet := by
    intro v hv
    rw [(h v hv).passed_iff_unmet, NameSet.ext_iff]
    simp
  rw [failing, List.filter_eq_nil_iff]
  constructor
  · intro hall hx
    obtain ⟨v, hv, hgap⟩ := hx
    exact (hpassed v hv).1 (by simpa using hall v hv) hgap
  · intro hnone v hv
    have hvpassed : v.passed = true := (hpassed v hv).2 fun hgap => hnone ⟨v, hv, hgap⟩
    rw [hvpassed]
    exact Bool.false_ne_true

theorem any_violations_failing_iff [SetOrder] (h : ∀ v ∈ r.verdicts, v.Coherent store mode) :
    (r.failing.any fun v => !v.violations.isEmpty) = true ↔
      ∃ v ∈ r.verdicts, ∃ c ∈ v.required, store.Vetoed v.id.key c := by
  have hviolations : ∀ v ∈ r.verdicts,
      v.violations ≠ [] ↔ ∃ c ∈ v.required, store.Vetoed v.id.key c := by
    intro v hv
    rw [Ne, (h v hv).violations_eq_nil_iff]
    push Not
    exact Iff.rfl
  rw [List.any_eq_true]
  constructor
  · intro hx
    obtain ⟨v, hv, hsome⟩ := hx
    have hmem : v ∈ r.verdicts := (List.mem_filter.1 hv).1
    exact ⟨v, hmem, (hviolations v hmem).1 (by simpa using hsome)⟩
  · intro hx
    obtain ⟨v, hv, hvetoed⟩ := hx
    have hsome := (hviolations v hv).2 hvetoed
    -- A package with violations fails, whatever else is met.
    have hfails : v.passed = false := by
      rw [Verdict.passed, List.isEmpty_eq_false_iff.2 hsome, Bool.and_false]
    exact ⟨v, List.mem_filter.2 ⟨hv, by rw [hfails]; rfl⟩, by simpa using hsome⟩

theorem denied_iff [SetOrder] (h : ∀ v ∈ r.verdicts, v.Coherent store mode) :
    (!r.conflicts.isEmpty || r.failing.any fun v => !v.violations.isEmpty) = true ↔
      r.Denied store := by
  rw [Bool.or_eq_true, any_violations_failing_iff h, Denied]
  simp

theorem counts_sum_of_coherent [SetOrder] (h : ∀ v ∈ r.verdicts, v.Coherent store mode) :
    r.failing.length + r.count .fully + r.count .partially + r.count .withExemptions =
      r.verdicts.length := by
  simp only [failing, count, ← List.countP_eq_length_filter]
  generalize r.verdicts = verdicts at h ⊢
  induction verdicts with
  | nil => rfl
  | cons v vs ih =>
    obtain ⟨hv, hvs⟩ := List.forall_mem_cons.1 h
    have hone := Verdict.count_eq_one hv.passed_iff_status.1
    have hrest := ih hvs
    simp only [List.countP_cons, List.length_cons]
    omega

theorem conclusion_of_coherent [SetOrder] (h : ∀ v ∈ r.verdicts, v.Coherent store mode) :
    (r.conclusion = .failViolation ↔ r.Denied store) ∧
      (r.conclusion = .failVetting ↔ ¬r.Denied store ∧ r.Wanting) ∧
        (r.conclusion = .success ↔ ¬r.Denied store ∧ ¬r.Wanting) := by
  by_cases hdenied : r.Denied store
  · have hconclusion : r.conclusion = .failViolation := if_pos ((denied_iff h).2 hdenied)
    simp [hconclusion, hdenied]
  · have hfree := mt (denied_iff h).1 hdenied
    by_cases hwanting : r.Wanting
    · have hfailing : ¬r.failing.isEmpty = true := fun hempty =>
        (failing_eq_nil_iff h).1 (List.isEmpty_iff.1 hempty) hwanting
      have hconclusion : r.conclusion = .failVetting := by
        rw [conclusion, if_neg hfree, if_neg hfailing]
      simp [hconclusion, hdenied, hwanting]
    · have hfailing : r.failing.isEmpty = true :=
        List.isEmpty_iff.2 ((failing_eq_nil_iff h).2 hwanting)
      have hconclusion : r.conclusion = .success := by
        rw [conclusion, if_neg hfree, if_pos hfailing]
      simp [hconclusion, hdenied, hwanting]

theorem coherent_report [SetOrder] :
    (store.report mode g requirements).Coherent store mode g requirements := by
  have hverdicts : ∀ v ∈ (store.report mode g requirements).verdicts,
      ∃ id, v = store.judge mode id (requirements.of id.key) := by
    intro v hv
    obtain ⟨id, _, rfl⟩ := List.mem_map.1 hv
    exact ⟨id, rfl⟩
  have hcoherent : ∀ v ∈ (store.report mode g requirements).verdicts, v.Coherent store mode := by
    intro v hv
    obtain ⟨id, rfl⟩ := hverdicts v hv
    exact Verdict.coherent_judge
  have hkeys : (store.report mode g requirements).verdicts.map (fun v => v.id.key) =
      g.thirdParty.map PackageId.key := by
    rw [AuditStore.report, List.map_map]
    rfl
  obtain ⟨hviolation, hvetting, hsuccess⟩ := conclusion_of_coherent hcoherent
  refine ⟨?_, fun k => ?_, fun v hv => ?_, hcoherent, hviolation, hvetting, hsuccess,
    counts_sum_of_coherent hcoherent⟩
  · rw [hkeys]
    exact DependencyGraph.nodup_thirdParty
  · rw [hkeys]
    exact DependencyGraph.mem_thirdParty_key
  · obtain ⟨id, rfl⟩ := hverdicts v hv
    rfl

end Report

namespace AuditStore

variable {model : CriteriaModel} {store : AuditStore model} {mode : ExemptionMode}
  {g : DependencyGraph} {policies : PolicyTable} {report : Report}

/-- Every report of a vet is coherent. -/
theorem vet_coherent [SetOrder] (h : (store.vetLogged mode g policies).outcome = .ok report) :
    ∃ requirements, (store.propagator mode policies).propagate g = .ok requirements ∧
      report.Coherent store mode g requirements := by
  rw [outcome_vetLogged] at h
  obtain ⟨_, requirements, hrequirements, rfl⟩ := vet_eq_ok h
  exact ⟨requirements, hrequirements, Report.coherent_report⟩

/-- The middle package is exempted. The base was reviewed, and later denied being safe to deploy. -/
def workbenchRecall : AuditStore .builtin :=
  let v : Version := { major := 1, minor := 0, patch := 0 }
  .ofRecords .builtin [
    .exemption { package := "middle", version := v, criteria := .single safeToDeploy },
    .full { package := "base", version := v, criteria := .single safeToDeploy },
    .violation { package := "base", versions := ⟨">=1.0.0", [⟨.atLeast, v.toRelease⟩]⟩
                 criteria := .single safeToDeploy }]

theorem vet_coherent_workbenchRecall :
    ∃ report, (workbenchRecall.vetLogged .deny workbench {}).outcome = .ok report ∧
      report.conclusion = .failViolation ∧ report.failing.length = 2 ∧
        ∃ requirements, (workbenchRecall.propagator .deny {}).propagate workbench =
            .ok requirements ∧
          report.Coherent workbenchRecall .deny workbench requirements := by
  obtain ⟨report, hvet, hfails⟩ : ∃ report,
      (workbenchRecall.vetLogged .deny workbench {}).outcome = .ok report ∧
        (decide (report.conclusion = .failViolation) && report.failing.length == 2) = true :=
    exists_report_of_any (by decide +kernel)
  rw [Bool.and_eq_true, decide_eq_true_eq, beq_iff_eq] at hfails
  exact ⟨report, hvet, hfails.1, hfails.2, vet_coherent hvet⟩

end AuditStore

end Vetting
