import Vetting.Proofs.GraphGrowth
import Vetting.Proofs.Implication
import Vetting.Suggestion.Basic

/-! Stores with more records. Reviews that are added deny nothing, so what is satisfied stays so,
and a review whose start holds its criteria makes its end hold all that they imply. -/

namespace Vetting

theorem AuditRecord.denies_of_mem_closure {model : CriteriaModel} {r : AuditRecord}
    {package c d : String} {v : Release} (hc : c ∈ model.closure d)
    (h : r.denies model package v c = true) : r.denies model package v d = true := by
  cases r with
  | violation w =>
    simp only [denies, Bool.and_eq_true, NameSet.meets_iff] at h ⊢
    obtain ⟨hrange, e, he, hec⟩ := h
    have hed : e ∈ model.closure d := model.closure_trans hc hec
    exact ⟨hrange, e, he, hed⟩
  | full a => cases h
  | delta a => cases h
  | exemption x => cases h
  | grant g => cases h

namespace AuditStore

variable {model : CriteriaModel} {store : AuditStore model} {mode : ExemptionMode}
  {records : List AuditRecord} {r : AuditRecord} {chain : List AuditRecord} {c d package : String}
  {v : Release} {id : PackageId} {key : PackageKey}

/-- Whether no accepted record denies a release what a criterion implies. -/
def Undenied (store : AuditStore model) (key : PackageKey) (criterion : String) : Prop :=
  ∀ r ∈ store.accepted, r.denies model key.package key.release criterion = false

theorem not_undenied_iff : ¬store.Undenied key c ↔
    ∃ r ∈ store.accepted, r.denies model key.package key.release c = true := by
  simp [Undenied]

theorem Undenied.of_mem_closure (h : store.Undenied key d) (hc : c ∈ model.closure d) :
    store.Undenied key c := by
  by_contra hdenied
  obtain ⟨r, hr, hdenies⟩ := not_undenied_iff.1 hdenied
  have hd : r.denies model key.package key.release d = true := AuditRecord.denies_of_mem_closure hc hdenies
  exact not_undenied_iff.2 ⟨r, hr, hd⟩ h

/-- What implies a criterion is satisfied only where that criterion is, too. -/
theorem satisfied_of_mem_closure [SetOrder] (h : d ∈ store.satisfied mode id)
    (hc : c ∈ model.closure d) : c ∈ store.satisfied mode id := by
  obtain ⟨hd, hundenied, chain, hchain⟩ := mem_satisfied_iff_chain.1 h
  have hknown : c ∈ model := model.mem_of_mem_closure hd hc
  have hfree : store.Undenied id.key d := hundenied
  refine mem_satisfied_iff_chain.2 ⟨hknown, hfree.of_mem_closure hc, chain, hchain.imp ?_⟩
  intro r counts
  obtain ⟨e, he, hde⟩ := counts.implies
  exact ⟨counts.accepted, counts.filed, counts.admitted, e, he, model.closure_trans hde hc⟩

theorem mem_accepted_withRecords : r ∈ (store.withRecords records).accepted ↔
    r ∈ store.accepted ∨ r ∈ records ∧ r.fault? model r.package = none := by
  rw [accepted_withRecords, List.mem_append, accepted_ofRecords, List.mem_filter,
    Option.isNone_iff_eq_none]

theorem Counts.withRecords (h : store.Counts mode package c r) (records : List AuditRecord) :
    (store.withRecords records).Counts mode package c r :=
  ⟨mem_accepted_withRecords.2 (.inl h.accepted), h.filed, h.admitted, h.implies⟩

theorem Chain.withRecords (h : store.Chain mode package c chain v) (records : List AuditRecord) :
    (store.withRecords records).Chain mode package c chain v :=
  h.imp fun _ counts => counts.withRecords records

theorem Undenied.withRecords (h : store.Undenied key c)
    (hpositive : ∀ r ∈ records, r.violation? = none) :
    (store.withRecords records).Undenied key c := by
  intro r hr
  rcases mem_accepted_withRecords.1 hr with hold | ⟨hnew, _⟩
  · exact h r hold
  · exact AuditRecord.denies_of_violation?_eq_none (hpositive r hnew) key.package key.release c

theorem satisfied_withRecords [SetOrder] (h : c ∈ store.satisfied mode id)
    (hpositive : ∀ r ∈ records, r.violation? = none) :
    c ∈ (store.withRecords records).satisfied mode id := by
  obtain ⟨hc, hundenied, chain, hchain⟩ := mem_satisfied_iff_chain.1 h
  have hfree : store.Undenied id.key c := hundenied
  exact mem_satisfied_iff_chain.2
    ⟨hc, hfree.withRecords hpositive, chain, hchain.withRecords records⟩

theorem mem_violationsFor_withRecords {w : Violation}
    (hpositive : ∀ r ∈ records, r.violation? = none)
    (h : w ∈ (store.withRecords records).violationsFor package) :
    w ∈ store.violationsFor package := by
  obtain ⟨hw, hpackage⟩ := mem_violationsFor.1 h
  rcases mem_accepted_withRecords.1 hw with hold | ⟨hnew, _⟩
  · exact mem_violationsFor.2 ⟨hold, hpackage⟩
  · have hnone := hpositive _ hnew
    cases hnone

theorem recordsFor_withRecords (h : ∀ r ∈ records, r.package ≠ package) :
    (store.withRecords records).recordsFor package = store.recordsFor package := by
  have hnone : (ofRecords model records).accepted.filter (fun r => r.package = package) = [] := by
    rw [List.filter_eq_nil_iff]
    intro r hr
    rw [accepted_ofRecords] at hr
    simpa using h r (List.mem_filter.1 hr).1
  rw [recordsFor, accepted_withRecords, List.filter_append, hnone, List.append_nil]
  rfl

/-- Only records of the package itself have a say in what a version satisfies. -/
theorem resolve_congr_recordsFor [SetOrder] {store' : AuditStore model}
    (h : store'.recordsFor id.package = store.recordsFor id.package) (criterion : String) :
    store'.resolve mode id criterion = store.resolve mode id criterion := by
  have hgraph : AuditGraph.build store' id.package [id.version] =
      AuditGraph.build store id.package [id.version] := by
    simp only [AuditGraph.build, AuditGraph.known, h]
  have hblocking : store'.blocking id.package id.version.toRelease criterion =
      store.blocking id.package id.version.toRelease criterion := by
    simp only [blocking, violationsFor, h]
  have hpackage : (AuditGraph.build store id.package [id.version]).package = id.package := rfl
  simp only [resolve, resolveIn, hgraph, hpackage, hblocking]

end AuditStore

section Review

variable {mode : ExemptionMode} {package : String} {start : Option Version} {target : Version}
  {criteria : NameSet} {who : List String} {notes : Json}

theorem package_reviewRecord :
    (reviewRecord package start target criteria who notes).package = package := by
  cases start with
  | none => rfl
  | some v => rfl

theorem criteria_reviewRecord :
    (reviewRecord package start target criteria who notes).criteria = criteria := by
  cases start with
  | none => rfl
  | some v => rfl

theorem dependencyCriteria_reviewRecord :
    (reviewRecord package start target criteria who notes).dependencyCriteria = ∅ := by
  cases start with
  | none => rfl
  | some v => rfl

theorem target?_reviewRecord :
    (reviewRecord package start target criteria who notes).target? = some target := by
  cases start with
  | none => rfl
  | some v => rfl

theorem violation?_reviewRecord :
    (reviewRecord package start target criteria who notes).violation? = none := by
  cases start with
  | none => rfl
  | some v => rfl

theorem admits_reviewRecord :
    mode.admits (reviewRecord package start target criteria who notes) = true := by
  cases mode with
  | allow => rfl
  | confirmedOnly =>
    cases start with
    | none => rfl
    | some v => rfl
  | deny =>
    cases start with
    | none => rfl
    | some v => rfl

theorem fault?_reviewRecord {model : CriteriaModel} (hnonempty : ∃ c, c ∈ criteria)
    (hknown : ∀ c ∈ criteria, c ∈ model)
    (hmoves : ∀ v, start = some v → v.toRelease ≠ target.toRelease) :
    (reviewRecord package start target criteria who notes).fault? model package = none := by
  have hdependency : (reviewRecord package start target criteria who notes).dependencyFault? model =
      none := by
    rw [AuditRecord.dependencyFault?, dependencyCriteria_reviewRecord]
    rfl
  have hloop : (reviewRecord package start target criteria who notes).isLoop = false := by
    cases start with
    | none => rfl
    | some v => exact beq_eq_false_iff_ne.2 (hmoves v rfl)
  rw [AuditRecord.fault?_eq_none_iff, criteria_reviewRecord]
  exact ⟨package_reviewRecord, hnonempty, hknown, hdependency, hloop⟩

end Review

namespace SuggestedAudit

variable {model : CriteriaModel} {store : AuditStore model} {mode : ExemptionMode}
  {a b : SuggestedAudit} {c : String} {records : List AuditRecord}

/-- The version that a review ends at. -/
def key (a : SuggestedAudit) : PackageKey := ⟨a.package, a.target.toRelease⟩

theorem package_toRecord : a.toRecord.package = a.package := package_reviewRecord

theorem criteria_toRecord : a.toRecord.criteria = a.criteria := criteria_reviewRecord

theorem dependencyCriteria_toRecord : a.toRecord.dependencyCriteria = ∅ :=
  dependencyCriteria_reviewRecord

theorem target?_toRecord : a.toRecord.target? = some a.target := target?_reviewRecord

theorem violation?_toRecord : a.toRecord.violation? = none := violation?_reviewRecord

theorem admits_toRecord : mode.admits a.toRecord = true := admits_reviewRecord

/-- What a suggested audit needs for its record to count: criteria of the model that nothing
denies where it ends, and that are satisfied where it starts if it starts anywhere. -/
structure Promising [SetOrder] (store : AuditStore model) (mode : ExemptionMode)
    (a : SuggestedAudit) : Prop where
  known : ∀ c ∈ a.criteria, c ∈ model
  nonempty : ∃ c, c ∈ a.criteria
  undenied : ∀ c ∈ a.criteria, store.Undenied a.key c
  moves : ∀ v, a.start = some v → v.toRelease ≠ a.target.toRelease
  based : ∀ v, a.start = some v → ∀ c ∈ a.criteria, c ∈ store.satisfied mode ⟨a.package, v⟩

theorem Promising.fault?_toRecord [SetOrder] (h : Promising store mode a) :
    a.toRecord.fault? model a.toRecord.package = none := by
  rw [package_toRecord]
  exact fault?_reviewRecord h.nonempty h.known h.moves

/-- A promising audit that is performed makes the release where it ends hold all it is for,
whatever other reviews are added with it. -/
theorem Promising.satisfied [SetOrder] (h : Promising store mode a) (ha : a.toRecord ∈ records)
    (hpositive : ∀ r ∈ records, r.violation? = none) (hc : c ∈ model.expand a.criteria) :
    c ∈ (store.withRecords records).satisfied mode ⟨a.package, a.target⟩ := by
  obtain ⟨d, hd, hcd⟩ := model.mem_expand.1 hc
  refine AuditStore.satisfied_of_mem_closure ?_ hcd
  have hundenied : (store.withRecords records).Undenied a.key d :=
    (h.undenied d hd).withRecords hpositive
  have hcounts : (store.withRecords records).Counts mode a.package d a.toRecord :=
    ⟨AuditStore.mem_accepted_withRecords.2 (.inr ⟨ha, h.fault?_toRecord⟩), package_toRecord,
      admits_toRecord, d, criteria_toRecord.symm ▸ hd, model.self_mem_closure d⟩
  refine AuditStore.mem_satisfied_iff_chain.2 ⟨h.known d hd, hundenied, ?_⟩
  -- The record is a chain of its own or goes on with one for the release where it starts.
  cases hstart : a.start with
  | none =>
    have hvouches : a.toRecord.Vouches a.target.toRelease := by
      simp only [toRecord, reviewRecord, hstart]
      rfl
    exact ⟨_, .vouched hcounts hvouches⟩
  | some v =>
    have hleads : a.toRecord.Leads v.toRelease a.target.toRelease := by
      simp only [toRecord, reviewRecord, hstart]
      exact ⟨rfl, rfl⟩
    obtain ⟨_, _, chain, hchain⟩ := AuditStore.mem_satisfied_iff_chain.1 (h.based v hstart d hd)
    exact ⟨_, .led (hchain.withRecords records) hcounts hleads⟩

end SuggestedAudit

end Vetting
