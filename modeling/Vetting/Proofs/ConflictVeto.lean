import Vetting.Proofs.MoreRecords

/-! Conflicts and vetoes. A claim conflicts with a violation exactly when the violation blocks,
at the version that the claim is for, some criterion that the claim stands for. -/

namespace Vetting.AuditStore

variable {model : CriteriaModel} {store : AuditStore model} {mode : ExemptionMode}
  {r : AuditRecord} {t : Version} {w : Violation} {x : Conflict} {s : NameSet} {c : String}

theorem mem_conflicts : x ∈ store.conflicts ↔ ∃ r ∈ store.accepted, x ∈ store.conflictsOf r := by
  have hpackages : ∀ r ∈ store.accepted, r.package ∈ store.packages.toList := by
    intro r hr
    apply NameSet.mem_ofList.2
    exact List.mem_map_of_mem hr
  rw [conflicts, conflictsIn, List.mem_flatMap]
  constructor
  · intro hx
    obtain ⟨p, _, hp⟩ := hx
    obtain ⟨r, hr, hmem⟩ := List.mem_flatMap.1 hp
    exact ⟨r, (mem_recordsFor.1 hr).1, hmem⟩
  · intro hx
    obtain ⟨r, hr, hmem⟩ := hx
    have hown : r ∈ store.recordsFor r.package := mem_recordsFor.2 ⟨hr, rfl⟩
    exact ⟨r.package, hpackages r hr, List.mem_flatMap.2 ⟨r, hown, hmem⟩⟩

/-- A set implies something that is denied exactly when one criterion that it implies does. -/
theorem meets_expand_iff : (model.expand s).meets w.criteria = true ↔
    ∃ c ∈ model.expand s, ∃ d ∈ w.criteria, d ∈ model.closure c := by
  rw [NameSet.meets_iff]
  constructor
  · intro hx
    obtain ⟨c, hc, hdenied⟩ := hx
    exact ⟨c, hc, c, hdenied, model.self_mem_closure c⟩
  · intro hx
    obtain ⟨c, hc, d, hdenied, hd⟩ := hx
    obtain ⟨a, ha, hca⟩ := model.mem_expand.1 hc
    have hda : d ∈ model.closure a := model.closure_trans hca hd
    exact ⟨d, model.mem_expand.2 ⟨a, ha, hda⟩, hdenied⟩

theorem mem_conflicts_of_record (hr : r ∈ store.accepted) (ht : r.target? = some t) :
    ⟨w, r, t⟩ ∈ store.conflicts ↔
      ∃ c ∈ model.expand r.criteria, w ∈ store.blocking r.package t.toRelease c := by
  have hconflict : ⟨w, r, t⟩ ∈ store.conflicts ↔ w ∈ store.violationsFor r.package ∧
      (model.expand r.criteria).meets w.criteria = true ∧
        w.versions.contains t.toRelease = true := by
    rw [mem_conflicts]
    constructor
    · intro hx
      obtain ⟨q, _, hq⟩ := hx
      obtain ⟨hrecord, _, hviolation⟩ := mem_conflictsOf.1 hq
      cases hrecord
      exact hviolation
    · intro hx
      exact ⟨r, hr, mem_conflictsOf.2 ⟨rfl, ht, hx⟩⟩
  rw [hconflict, meets_expand_iff]
  constructor
  · intro hx
    obtain ⟨hviolation, ⟨c, hc, hdenied⟩, hrange⟩ := hx
    exact ⟨c, hc, mem_blocking.2 ⟨hviolation, hrange, hdenied⟩⟩
  · intro hx
    obtain ⟨c, hc, hblocking⟩ := hx
    obtain ⟨hviolation, hrange, hdenied⟩ := mem_blocking.1 hblocking
    exact ⟨hviolation, ⟨c, hc, hdenied⟩, hrange⟩

/-- A record that an undenied criterion of it is asked of is a chain of its own. -/
theorem satisfied_of_vouches [SetOrder] (hr : r ∈ store.accepted) (hadmits : mode.admits r = true)
    (hvouches : r.Vouches t.toRelease) (hc : c ∈ model.expand r.criteria)
    (hfree : store.blocking r.package t.toRelease c = []) :
    c ∈ store.satisfied mode ⟨r.package, t⟩ := by
  obtain ⟨d, hd, hcd⟩ := model.mem_expand.1 hc
  have hknown : c ∈ model := model.mem_of_mem_closure (known_of_mem_accepted hr hd) hcd
  have hcounts : store.Counts mode r.package c r := ⟨hr, rfl, hadmits, d, hd, hcd⟩
  apply mem_satisfied_iff_chain.2
  exact ⟨hknown, blocking_eq_nil_iff.1 hfree, [r], .vouched hcounts hvouches⟩

theorem blocking_of_satisfied [SetOrder] {id : PackageId} (h : c ∈ store.satisfied mode id) :
    store.blocking id.package id.version.toRelease c = [] := by
  obtain ⟨_, hundenied, _⟩ := mem_satisfied_iff_chain.1 h
  exact blocking_eq_nil_iff.2 hundenied

theorem vouches_of_target? (ht : r.target? = some t) (hdelta : ∀ a, r ≠ .delta a) :
    r.Vouches t.toRelease := by
  cases r with
  | full a =>
    cases ht
    rfl
  | exemption e =>
    cases ht
    rfl
  | delta a => exact absurd rfl (hdelta a)
  | grant g => cases ht
  | violation w => cases ht

/-- The conflicts of a claim for a version are the violations that block what it stands for there;
a claim that presumes no other version is free of conflicts exactly when all of that is
satisfied. -/
theorem conflicts_agree_with_vetoes [SetOrder] (hr : r ∈ store.accepted) (ht : r.target? = some t) :
    (∀ w, ⟨w, r, t⟩ ∈ store.conflicts ↔
      ∃ c ∈ model.expand r.criteria, w ∈ store.blocking r.package t.toRelease c) ∧
    ((∀ a, r ≠ .delta a) → ((∀ x ∈ store.conflicts, x.record ≠ r) ↔
      ∀ c ∈ model.expand r.criteria, c ∈ store.satisfied .allow ⟨r.package, t⟩)) := by
  refine ⟨fun w => mem_conflicts_of_record hr ht, fun hdelta => ?_⟩
  have hvouches : r.Vouches t.toRelease := vouches_of_target? ht hdelta
  constructor
  · intro hnone c hc
    apply satisfied_of_vouches hr rfl hvouches hc
    rw [List.eq_nil_iff_forall_not_mem]
    intro w hw
    have hconflict : ⟨w, r, t⟩ ∈ store.conflicts := (mem_conflicts_of_record hr ht).2 ⟨c, hc, hw⟩
    exact hnone _ hconflict rfl
  · intro hall x hx hrecord
    obtain ⟨q, _, hq⟩ := mem_conflicts.1 hx
    obtain ⟨hxq, htarget, _⟩ := mem_conflictsOf.1 hq
    -- The conflict is about the version that the record is for.
    obtain rfl : q = r := hxq.symm.trans hrecord
    obtain rfl : x.version = t := Option.some.inj (htarget.symm.trans ht)
    have hmem : ⟨x.violation, q, x.version⟩ ∈ store.conflicts := by
      rw [← hrecord]
      exact hx
    obtain ⟨c, hc, hw⟩ := (mem_conflicts_of_record hr ht).1 hmem
    rw [blocking_of_satisfied (hall c hc)] at hw
    cases hw

/-- A package whose second version was exempted before it was recalled. -/
def recalled : AuditStore .builtin :=
  let first : Version := { major := 1, minor := 0, patch := 0 }
  let second : Version := { major := 2, minor := 0, patch := 0 }
  .ofRecords .builtin [
    .full { package := "pad", version := first, criteria := .single safeToDeploy },
    .exemption { package := "pad", version := second, criteria := .single safeToDeploy },
    .violation { package := "pad", versions := ⟨">=2.0.0", [⟨.atLeast, second.toRelease⟩]⟩
                 criteria := .single safeToRun }]

theorem conflicts_agree_with_vetoes_recalled :
    ∃ r ∈ recalled.accepted, ∃ t, r.target? = some t ∧
      (∀ w, ⟨w, r, t⟩ ∈ recalled.conflicts ↔
        ∃ c ∈ CriteriaModel.builtin.expand r.criteria,
          w ∈ recalled.blocking r.package t.toRelease c) ∧
      (∀ a, r ≠ .delta a) ∧ ((∀ x ∈ recalled.conflicts, x.record ≠ r) ↔
        ∀ c ∈ CriteriaModel.builtin.expand r.criteria,
          c ∈ recalled.satisfied .allow ⟨r.package, t⟩) := by
  let second : Version := { major := 2, minor := 0, patch := 0 }
  let r : AuditRecord :=
    .exemption { package := "pad", version := second, criteria := .single safeToDeploy }
  have hr : r ∈ recalled.accepted := by
    rw [recalled, accepted_ofRecords]
    exact List.mem_filter.2 ⟨List.mem_cons_of_mem _ (List.mem_cons_self ..), by decide +kernel⟩
  have hdelta : ∀ a, r ≠ .delta a := fun _ => nofun
  obtain ⟨hconflicts, hfree⟩ := conflicts_agree_with_vetoes (t := second) hr rfl
  exact ⟨r, hr, second, rfl, hconflicts, hdelta, hfree hdelta⟩

end Vetting.AuditStore
