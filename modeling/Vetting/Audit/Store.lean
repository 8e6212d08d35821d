import Vetting.Audit.Record

/-! The audit store: the records that a criteria model accepts, in the order they
came in, and those it refused, each with its reason. One bad record hides no other. -/

namespace Vetting

/-- A record that was refused, the package it was filed under, and why. -/
structure RejectedRecord where
  package : String
  record : AuditRecord
  fault : RecordFault

def RejectedRecord.reason (r : RejectedRecord) : String := r.fault.message r.record

/-- Records that nothing is wrong with, and those that were refused on the way. -/
structure AuditStore (model : CriteriaModel) where
  accepted : List AuditRecord
  rejected : List RejectedRecord
  valid : ∀ r ∈ accepted, r.fault? model r.package = none

namespace AuditStore

variable {model : CriteriaModel}

def accept? (model : CriteriaModel) (filed : String × AuditRecord) : Option AuditRecord :=
  match filed.2.fault? model filed.1 with
  | none => some filed.2
  | some _ => none

def reject? (model : CriteriaModel) (filed : String × AuditRecord) : Option RejectedRecord :=
  (filed.2.fault? model filed.1).map fun f => ⟨filed.1, filed.2, f⟩

theorem package_eq_of_accept? {filed : String × AuditRecord} {r : AuditRecord}
    (h : accept? model filed = some r) : r = filed.2 ∧ r.package = filed.1 := by
  unfold accept? at h
  split at h
  · next hf =>
    cases h
    refine ⟨rfl, Decidable.byContradiction fun hne => ?_⟩
    simp [AuditRecord.fault?, hne] at hf
  · cases h

theorem fault?_of_accept? {filed : String × AuditRecord} {r : AuditRecord}
    (h : accept? model filed = some r) : r.fault? model r.package = none := by
  obtain ⟨rfl, hp⟩ := package_eq_of_accept? h
  unfold accept? at h
  split at h
  · next hf => rw [hp]; exact hf
  · cases h

def ofFiled (model : CriteriaModel) (filed : List (String × AuditRecord)) : AuditStore model where
  accepted := filed.filterMap (accept? model)
  rejected := (sortBy (fun a b => decide (a.1 < b.1)) filed).filterMap (reject? model)
  valid := fun r hr => by
    obtain ⟨f, _, hf⟩ := List.mem_filterMap.1 hr
    exact fault?_of_accept? hf

/-- The store of records, each filed under the package that it names. -/
def ofRecords (model : CriteriaModel) (records : List AuditRecord) : AuditStore model :=
  ofFiled model (records.map fun r => (r.package, r))

instance : Inhabited (AuditStore model) := ⟨ofRecords model []⟩

/-- The store with more records; the old ones stay in front of them. -/
def withRecords (store : AuditStore model) (records : List AuditRecord) : AuditStore model :=
  ofRecords model (store.accepted ++ records)

theorem accepted_ofRecords (records : List AuditRecord) :
    (ofRecords model records).accepted =
      records.filter fun r => (r.fault? model r.package).isNone := by
  simp only [ofRecords, ofFiled, List.filterMap_map]
  induction records with
  | nil => rfl
  | cons r rs ih =>
    rw [List.filterMap_cons, List.filter_cons, ih]
    cases h : r.fault? model r.package <;> simp [accept?, h]

theorem accepted_withRecords (store : AuditStore model) (records : List AuditRecord) :
    (store.withRecords records).accepted =
      store.accepted ++ (ofRecords model records).accepted := by
  rw [withRecords, accepted_ofRecords, accepted_ofRecords, List.filter_append,
    List.filter_eq_self.2 fun r hr => by simp [store.valid r hr]]

def packages (store : AuditStore model) : NameSet :=
  NameSet.ofList (store.accepted.map AuditRecord.package)

def recordsFor (store : AuditStore model) (package : String) : List AuditRecord :=
  store.accepted.filter fun r => r.package = package

theorem mem_recordsFor {store : AuditStore model} {package : String} {r : AuditRecord} :
    r ∈ store.recordsFor package ↔ r ∈ store.accepted ∧ r.package = package := by
  simp [recordsFor]

def violationsFor (store : AuditStore model) (package : String) : List Violation :=
  (store.recordsFor package).filterMap AuditRecord.violation?

def exemptionsFor (store : AuditStore model) (package : String) (release : Release) :
    List Exemption :=
  ((store.recordsFor package).filterMap AuditRecord.exemption?).filter fun e =>
    e.version.toRelease = release

/-- The versions that records of a package name, sorted, each as the first record names it. -/
def versionsFor [SetOrder] (store : AuditStore model) (package : String) : List Version :=
  Version.sortedSet package ((store.recordsFor package).flatMap AuditRecord.versions)

def size (store : AuditStore model) : Nat := store.accepted.length

/-- The violations of a version that deny something a criterion implies. -/
def blocking (store : AuditStore model) (package : String) (release : Release)
    (criterion : String) : List Violation :=
  (store.violationsFor package).filter fun v =>
    v.versions.contains release && v.criteria.meets (model.closure criterion)

theorem mem_violationsFor {store : AuditStore model} {package : String} {v : Violation} :
    v ∈ store.violationsFor package ↔ .violation v ∈ store.accepted ∧ v.package = package := by
  rw [violationsFor, List.mem_filterMap]
  constructor
  · rintro ⟨r, hr, hv⟩
    rw [AuditRecord.violation?_eq_some_iff] at hv
    subst hv
    exact mem_recordsFor.1 hr
  · intro h
    exact ⟨.violation v, mem_recordsFor.2 h, rfl⟩

theorem mem_blocking {store : AuditStore model} {package criterion : String} {release : Release}
    {v : Violation} :
    v ∈ store.blocking package release criterion ↔
      v ∈ store.violationsFor package ∧ v.versions.contains release = true ∧
        ∃ c ∈ v.criteria, c ∈ model.closure criterion := by
  simp [blocking, NameSet.meets_iff]

end AuditStore

end Vetting
