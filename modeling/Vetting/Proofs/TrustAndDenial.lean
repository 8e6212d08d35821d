import Vetting.Proofs.ConflictVeto
import Vetting.Proofs.SessionMemory

/-! Trust and denial along implication. What a version satisfies comes with all that it implies, and
what blocks a criterion blocks all that imply it, whatever a session was asked before. -/

namespace Vetting

namespace AuditStore

variable {model : CriteriaModel} {store : AuditStore model} {mode : ExemptionMode}
  {c d package : String} {v : Release} {id : PackageId}

/-- What blocks a criterion is among what blocks a criterion that implies it, in the same order. -/
theorem blocking_sublist (hc : c ∈ model.closure d) :
    (store.blocking package v c).Sublist (store.blocking package v d) := by
  unfold blocking
  apply List.monotone_filter_right
  intro w hw
  rw [Bool.and_eq_true, NameSet.meets_iff] at hw ⊢
  obtain ⟨hrange, e, he, hec⟩ := hw
  exact ⟨hrange, e, he, model.closure_trans hc hec⟩

theorem not_mem_satisfied_of_blocking [SetOrder] (hc : c ∈ model.closure d)
    (h : store.blocking id.package id.version.toRelease c ≠ []) :
    d ∉ store.satisfied mode id := by
  intro hd
  have hfree : store.blocking id.package id.version.toRelease d = [] := blocking_of_satisfied hd
  have hsub : (store.blocking id.package id.version.toRelease c).Sublist [] :=
    hfree ▸ blocking_sublist hc
  exact h (List.sublist_nil.1 hsub)

end AuditStore

namespace Session

variable {model : CriteriaModel} {store : AuditStore model} {mode : ExemptionMode}
  {s : Session store} {calls : List Call} {c : String}

theorem Recalls.perform_satisfied [SetOrder] (h : Recalls mode calls s) (package : String)
    (v : Version) : (s.perform (.satisfied package (some v))).1 =
      .ok (.names (store.satisfied mode ⟨package, v⟩)) := by
  have hnames : (s.satisfied ⟨package, v⟩).1 = store.satisfied mode ⟨package, v⟩ := h.satisfied_eq
  exact congrArg (fun names => Except.ok (Answer.names names)) hnames

theorem perform_blocking [SetOrder] (hc : c ∈ model) (package : String) (v : Version) :
    (s.perform (.blocking package v c)).1 =
      .ok (.violations (store.blocking package v.toRelease c)) := by
  have hcheck : model.check c = .ok () := model.check_eq_ok_iff.2 hc
  rw [perform, hcheck]
  rfl

/-- Whatever a session was asked before, all that is implied by what a version satisfies is satisfied
there, too. Violations that block a criterion block, in their order, each of its satisfiers, none of
which is satisfied there. -/
theorem satisfied_down_denied_up [SetOrder] (store : AuditStore model) (mode : ExemptionMode)
    (calls : List Call) (package : String) (v : Version) :
    let s := (start store mode).after calls
    ∃ names, (s.perform (.satisfied package (some v))).1 = .ok (.names names) ∧
      (∀ c ∈ names, c ∈ model ∧ ∀ d ∈ model.closure c, d ∈ names) ∧
      ∀ c ∈ model, ∃ denials, (s.perform (.blocking package v c)).1 = .ok (.violations denials) ∧
        (denials ≠ [] → ∀ d ∈ model.satisfiers c, d ∉ names ∧
          ∃ more, (s.perform (.blocking package v d)).1 = .ok (.violations more) ∧
            denials.Sublist more) := by
  intro s
  have hrecalls : Recalls mode calls s := recalls_after calls
  refine ⟨_, hrecalls.perform_satisfied package v, fun c hc => ⟨?_, fun d hd => ?_⟩,
    fun c hc => ⟨_, perform_blocking hc package v, fun hdenied d hd => ?_⟩⟩
  · exact ((store.mem_satisfiedIn mode).1 hc).1
  · exact AuditStore.satisfied_of_mem_closure hc hd
  · obtain ⟨hknown, hdc⟩ := model.mem_satisfiers.1 hd
    have hblocked : d ∉ store.satisfied mode ⟨package, v⟩ :=
      AuditStore.not_mem_satisfied_of_blocking hdc hdenied
    exact ⟨hblocked, _, perform_blocking hknown package v, AuditStore.blocking_sublist hdc⟩

theorem satisfied_down_denied_up_reviewedTwice :
    let trusted : Version := { major := 3, minor := 1, patch := 0 }
    let denied : Version := { major := 4, minor := 0, patch := 0 }
    let s := (start reviewedTwice .deny).after
      [.prime [⟨"pad", trusted⟩] 2, .resolve "pad" (some denied) safeToRun]
    safeToRun ∈ CriteriaModel.builtin ∧ safeToDeploy ∈ CriteriaModel.builtin.satisfiers safeToRun ∧
      ∃ names denials more, (s.perform (.satisfied "pad" (some denied))).1 = .ok (.names names) ∧
        (s.perform (.blocking "pad" denied safeToRun)).1 = .ok (.violations denials) ∧
          denials ≠ [] ∧ safeToDeploy ∉ names ∧
            (s.perform (.blocking "pad" denied safeToDeploy)).1 = .ok (.violations more) ∧
              denials.Sublist more := by
  intro trusted denied s
  have hrun : safeToRun ∈ CriteriaModel.builtin := by decide +kernel
  have hdeploy : safeToDeploy ∈ CriteriaModel.builtin.satisfiers safeToRun := by decide +kernel
  have hblocked : reviewedTwice.blocking "pad" denied.toRelease safeToRun ≠ [] := by
    rw [← List.isEmpty_eq_false_iff]
    decide +kernel
  obtain ⟨names, hnames, _, hdenied⟩ := satisfied_down_denied_up reviewedTwice .deny
    [.prime [⟨"pad", trusted⟩] 2, .resolve "pad" (some denied) safeToRun] "pad" denied
  obtain ⟨denials, hdenials, hup⟩ := hdenied safeToRun hrun
  rw [perform_blocking hrun] at hdenials
  cases hdenials
  obtain ⟨hnot, more, hmore, hsub⟩ := hup hblocked safeToDeploy hdeploy
  exact ⟨hrun, hdeploy, names, _, more, hnames, perform_blocking hrun _ _, hblocked, hnot, hmore, hsub⟩

end Session

end Vetting
