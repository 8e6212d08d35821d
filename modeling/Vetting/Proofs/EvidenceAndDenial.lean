import Vetting.Proofs.AdoptedRecords
import Vetting.Proofs.StricterMode

/-! Evidence adds and violations subtract. More reviews and more lenient modes leave all that is
satisfied; a violation takes away what implies something it denies, and nothing else. -/

namespace Vetting

namespace AuditStore

variable {model : CriteriaModel} {store : AuditStore model} {mode : ExemptionMode}
  {records : List AuditRecord} {c package : String} {v : Release} {id : PackageId} {w : Violation}

/-- Violations open no way to a release and close none. -/
theorem exists_chain_withRecords_iff (hdenials : ∀ r ∈ records, r.violation? ≠ none) :
    (∃ chain, (store.withRecords records).Chain mode package c chain v) ↔
      ∃ chain, store.Chain mode package c chain v := by
  have hcounts : ∀ r, (store.withRecords records).Counts mode package c r → r.violation? = none →
      store.Counts mode package c r := by
    intro r hr hpositive
    have hold : r ∈ store.accepted := by
      rcases mem_accepted_withRecords.1 hr.accepted with hold | ⟨hnew, _⟩
      · exact hold
      · exact absurd hpositive (hdenials r hnew)
    exact ⟨hold, hr.filed, hr.admitted, hr.implies⟩
  rw [exists_chain_iff_reached, exists_chain_iff_reached]
  constructor
  · intro h
    refine h.transfer (fun r v hr hv => ?_) fun r u v hr hv hne => ?_
    · exact ⟨r, hcounts r hr hv.positive.1, hv⟩
    · exact ⟨r, hcounts r hr (hv.positive hne).1, hv⟩
  · intro h
    exact h.imp fun r hr => hr.withRecords records

theorem undenied_withRecords_iff {key : PackageKey} :
    (store.withRecords records).Undenied key c ↔ store.Undenied key c ∧
      ∀ r ∈ records, r.fault? model r.package = none →
        r.denies model key.package key.release c = false := by
  constructor
  · intro h
    refine ⟨fun r hr => ?_, fun r hr hvalid => ?_⟩
    · exact h r (mem_accepted_withRecords.2 (.inl hr))
    · exact h r (mem_accepted_withRecords.2 (.inr ⟨hr, hvalid⟩))
  · intro hx r hr
    obtain ⟨hold, hnew⟩ := hx
    rcases mem_accepted_withRecords.1 hr with hr | ⟨hr, hvalid⟩
    · exact hold r hr
    · exact hnew r hr hvalid

theorem mem_satisfied_withRecords_of_denials [SetOrder]
    (hdenials : ∀ r ∈ records, r.violation? ≠ none) :
    c ∈ (store.withRecords records).satisfied mode id ↔ c ∈ store.satisfied mode id ∧
      ∀ r ∈ records, r.fault? model r.package = none →
        r.denies model id.package id.version.toRelease c = false := by
  rw [mem_satisfied_iff_chain, mem_satisfied_iff_chain, exists_chain_withRecords_iff hdenials]
  constructor
  · intro hx
    obtain ⟨hc, hfree, hchain⟩ := hx
    have hundenied : (store.withRecords records).Undenied id.key c := hfree
    obtain ⟨hold, hnew⟩ := undenied_withRecords_iff.1 hundenied
    exact ⟨⟨hc, hold, hchain⟩, hnew⟩
  · intro hx
    obtain ⟨⟨hc, hfree, hchain⟩, hnew⟩ := hx
    have hold : store.Undenied id.key c := hfree
    have hundenied : (store.withRecords records).Undenied id.key c :=
      undenied_withRecords_iff.2 ⟨hold, hnew⟩
    exact ⟨hc, hundenied, hchain⟩

theorem satisfied_withRecords_violation [SetOrder]
    (hvalid : (AuditRecord.violation w).fault? model id.package = none) :
    (store.withRecords [.violation w]).satisfied mode id =
      if w.versions.contains id.version.toRelease then
        (store.satisfied mode id).filter fun c => !w.criteria.meets (model.closure c)
      else store.satisfied mode id := by
  have hfiled : w.package = id.package := (AuditRecord.fault?_eq_none_iff.1 hvalid).1
  have hdenials : ∀ r ∈ [AuditRecord.violation w], r.violation? ≠ none := by
    intro r hr hnone
    rw [List.mem_singleton.1 hr] at hnone
    cases hnone
  have hdenies : ∀ c, (∀ r ∈ [AuditRecord.violation w], r.fault? model r.package = none →
      r.denies model id.package id.version.toRelease c = false) ↔
        (w.versions.contains id.version.toRelease && w.criteria.meets (model.closure c)) =
          false := by
    intro c
    have hself : (AuditRecord.violation w).fault? model (AuditRecord.violation w).package =
        none := by
      rwa [AuditRecord.package, hfiled]
    rw [List.forall_mem_singleton, AuditRecord.denies, hfiled, beq_self_eq_true, Bool.true_and]
    exact ⟨fun h => h hself, fun h _ => h⟩
  ext c
  rw [mem_satisfied_withRecords_of_denials hdenials, hdenies]
  cases w.versions.contains id.version.toRelease with
  | true => simp
  | false => simp

/-- Positive records that are added, valid or not, leave all that is satisfied. A valid violation
takes away exactly the criteria that imply something it denies, and those only from versions in its
range. The more exemptions a mode counts, the more is satisfied. -/
theorem satisfied_grows_and_shrinks [SetOrder] (store : AuditStore model) (id : PackageId) :
    (∀ mode records, (∀ r ∈ records, r.violation? = none) → ∀ c ∈ store.satisfied mode id,
        c ∈ (store.withRecords records).satisfied mode id) ∧
      (∀ mode w, (AuditRecord.violation w).fault? model id.package = none →
        (store.withRecords [.violation w]).satisfied mode id =
          if w.versions.contains id.version.toRelease then
            (store.satisfied mode id).filter fun c => !w.criteria.meets (model.closure c)
          else store.satisfied mode id) ∧
      (∀ c ∈ store.satisfied .deny id, c ∈ store.satisfied .confirmedOnly id) ∧
      ∀ c ∈ store.satisfied .confirmedOnly id, c ∈ store.satisfied .allow id := by
  refine ⟨?_, ?_, ?_, ?_⟩
  · intro mode records hpositive c hc
    exact satisfied_withRecords hc hpositive
  · intro mode w hvalid
    exact satisfied_withRecords_violation hvalid
  · intro c hc
    exact satisfied_of_stricterThan (by decide) hc
  · intro c hc
    exact satisfied_of_stricterThan (by decide) hc

theorem satisfied_grows_and_shrinks_reviewedTwice :
    let id : PackageId := ⟨"pad", { major := 3, minor := 1, patch := 0 }⟩
    let review : AuditRecord := .full { package := "pad", version := id.version, criteria := ∅ }
    let w : Violation := { package := "pad", criteria := .single safeToRun,
                           versions := ⟨">=3.1.0", [⟨.atLeast, id.version.toRelease⟩]⟩ }
    safeToRun ∈ Session.reviewedTwice.satisfied .deny id ∧ review.violation? = none ∧
      (AuditRecord.violation w).fault? .builtin id.package = none ∧
        w.versions.contains id.version.toRelease = true ∧
        (∀ c ∈ Session.reviewedTwice.satisfied .deny id,
          c ∈ (Session.reviewedTwice.withRecords [review]).satisfied .deny id) ∧
        (Session.reviewedTwice.withRecords [.violation w]).satisfied .deny id =
          (Session.reviewedTwice.satisfied .deny id).filter (fun c =>
            !w.criteria.meets (CriteriaModel.builtin.closure c)) ∧
        safeToRun ∉ (Session.reviewedTwice.withRecords [.violation w]).satisfied .deny id := by
  intro id review w
  have hmet : safeToRun ∈ Session.reviewedTwice.satisfied .deny id := by decide +kernel
  have hpositive : ∀ r ∈ [review], r.violation? = none := List.forall_mem_singleton.2 rfl
  have hvalid : (AuditRecord.violation w).fault? .builtin id.package = none := by decide +kernel
  have hrange : w.versions.contains id.version.toRelease = true := by decide +kernel
  obtain ⟨hgrows, hshrinks, _⟩ := satisfied_grows_and_shrinks Session.reviewedTwice id
  have hdenied := hshrinks .deny w hvalid
  rw [if_pos hrange] at hdenied
  have hlost : safeToRun ∉
      (Session.reviewedTwice.withRecords [.violation w]).satisfied .deny id := by
    rw [hdenied, NameSet.mem_filter]
    intro hkept
    exact absurd hkept.2 (by decide +kernel)
  exact ⟨hmet, rfl, hvalid, hrange, hgrows .deny [review] hpositive, hdenied, hlost⟩

end AuditStore

end Vetting
