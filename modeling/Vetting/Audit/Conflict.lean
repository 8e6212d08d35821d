import Vetting.Audit.Store

/-! Conflicts: positive claims for a version that imply a criterion which a violation
of the same store denies it. Grants speak of ranges and are no part of this. -/

namespace Vetting

/-- A claim for a version and the violation that it contradicts. -/
structure Conflict where
  violation : Violation
  record : AuditRecord
  version : Version

def Conflict.describe (c : Conflict) : String :=
  s!"{c.violation.package}@{c.version}: {c.record.describe} claims {c.record.criteria.listed} " ++
    s!"but {(AuditRecord.violation c.violation).describe} denies {c.violation.criteria.listed}"

namespace AuditStore

variable {model : CriteriaModel}

def conflictsOf (store : AuditStore model) (r : AuditRecord) : List Conflict :=
  match r.target? with
  | none => []
  | some v =>
    ((store.violationsFor r.package).filter fun w =>
      (model.expand r.criteria).meets w.criteria && w.versions.contains v.toRelease).map
        fun w => ⟨w, r, v⟩

theorem mem_conflictsOf {store : AuditStore model} {r : AuditRecord} {c : Conflict} :
    c ∈ store.conflictsOf r ↔ c.record = r ∧ r.target? = some c.version ∧
      c.violation ∈ store.violationsFor r.package ∧
        (model.expand r.criteria).meets c.violation.criteria = true ∧
          c.violation.versions.contains c.version.toRelease = true := by
  unfold conflictsOf
  split
  · next h => simp [h]
  · next v h =>
    simp only [List.mem_map, List.mem_filter, Bool.and_eq_true, h, Option.some.injEq]
    constructor
    · rintro ⟨w, ⟨hw, hm, hc⟩, rfl⟩
      exact ⟨rfl, rfl, hw, hm, hc⟩
    · rintro ⟨hr, hv, hw, hm, hc⟩
      refine ⟨c.violation, ⟨hw, hm, hv ▸ hc⟩, ?_⟩
      cases c
      simp_all

/-- The conflicts in the records of some packages, by package and then in record order. -/
def conflictsIn (store : AuditStore model) (packages : NameSet) : List Conflict :=
  packages.toList.flatMap fun p => (store.recordsFor p).flatMap store.conflictsOf

def conflicts (store : AuditStore model) : List Conflict := store.conflictsIn store.packages

end AuditStore

end Vetting
