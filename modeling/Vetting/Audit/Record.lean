import Vetting.Criteria.Model
import Vetting.NameMap
import Vetting.PackageId
import Vetting.Version.Range

/-! Audit records: reviews of versions and of changes, exemptions from review,
grants to publishers, and violations. A record that is inconsistent names its fault. -/

namespace Vetting

/-- Criteria that a claim relies on its dependencies to meet, by package name. -/
abbrev DependencyCriteria := NameMap NameSet

structure FullAudit where
  package : String
  version : Version
  criteria : NameSet
  who : List String := []
  notes : Json := .null
  aggregatedFrom : List Json := []
  dependencyCriteria : DependencyCriteria := ∅
deriving Inhabited

/-- A review of the change from one version to another. It says nothing of the way back. -/
structure DeltaAudit where
  package : String
  start : Version
  target : Version
  criteria : NameSet
  who : List String := []
  notes : Json := .null
  aggregatedFrom : List Json := []
  dependencyCriteria : DependencyCriteria := ∅
deriving Inhabited

/-- Criteria claimed for a version that nobody reviewed. An unconfirmed exemption was
proposed and never approved; `suggest` tells whether reviews may be proposed in its place. -/
structure Exemption where
  package : String
  version : Version
  criteria : NameSet
  unconfirmed : Bool := false
  suggest : Bool := true
  notes : Json := .null
  dependencyCriteria : DependencyCriteria := ∅
deriving Inhabited

/-- Criteria granted to every version in a range because of who published it. -/
structure Grant where
  package : String
  versions : VersionRange
  criteria : NameSet
  publisher : String
  notes : Json := .null
  aggregatedFrom : List Json := []
deriving Inhabited

structure Violation where
  package : String
  versions : VersionRange
  criteria : NameSet
  who : List String := []
  notes : Json := .null
  aggregatedFrom : List Json := []
deriving Inhabited

inductive AuditRecord where
  | full (audit : FullAudit)
  | delta (audit : DeltaAudit)
  | exemption (exemption : Exemption)
  | grant (grant : Grant)
  | violation (violation : Violation)
deriving Inhabited

def Violation.agrees (v w : Violation) : Bool :=
  v.package == w.package && v.versions.raw == w.versions.raw && v.criteria == w.criteria &&
    v.who == w.who && v.notes.agrees w.notes && Json.agreesAll v.aggregatedFrom w.aggregatedFrom

namespace AuditRecord

def package : AuditRecord → String
  | full a => a.package
  | delta a => a.package
  | exemption e => e.package
  | grant g => g.package
  | violation v => v.package

def criteria : AuditRecord → NameSet
  | full a => a.criteria
  | delta a => a.criteria
  | exemption e => e.criteria
  | grant g => g.criteria
  | violation v => v.criteria

def notes : AuditRecord → Json
  | full a => a.notes
  | delta a => a.notes
  | exemption e => e.notes
  | grant g => g.notes
  | violation v => v.notes

/-- The imports that a record came through, the last one last; none for an exemption. -/
def aggregatedFrom : AuditRecord → List Json
  | full a => a.aggregatedFrom
  | delta a => a.aggregatedFrom
  | exemption _ => []
  | grant g => g.aggregatedFrom
  | violation v => v.aggregatedFrom

/-- The criteria that a positive claim relies on its dependencies to meet. -/
def dependencyCriteria : AuditRecord → DependencyCriteria
  | full a => a.dependencyCriteria
  | delta a => a.dependencyCriteria
  | exemption e => e.dependencyCriteria
  | grant _ => ∅
  | violation _ => ∅

/-- The versions that a record names; ranges name none. -/
def versions : AuditRecord → List Version
  | full a => [a.version]
  | delta a => [a.start, a.target]
  | exemption e => [e.version]
  | grant _ => []
  | violation _ => []

/-- The version that a positive claim ends at; ranges have none. -/
def target? : AuditRecord → Option Version
  | full a => some a.version
  | delta a => some a.target
  | exemption e => some e.version
  | grant _ => none
  | violation _ => none

def violation? : AuditRecord → Option Violation
  | violation v => some v
  | _ => none

theorem violation?_eq_some_iff {r : AuditRecord} {v : Violation} :
    r.violation? = some v ↔ r = .violation v := by
  cases r <;> simp [violation?]

def exemption? : AuditRecord → Option Exemption
  | exemption e => some e
  | _ => none

def isExemption (r : AuditRecord) : Bool := r.exemption?.isSome

def describe : AuditRecord → String
  | full a => s!"full audit of {a.version}"
  | delta a => s!"delta audit {a.start} -> {a.target}"
  | exemption e =>
    (if e.unconfirmed then "unconfirmed exemption" else "exemption") ++ s!" for {e.version}"
  | grant g => s!"trusted publisher {g.publisher} for {g.versions}"
  | violation v => s!"violation for {v.versions}"

end AuditRecord

inductive RecordFault where
  | misfiled (package filed : String)
  | noCriteria
  | unknownCriteria (names : NameSet)
  | unknownDependencyCriteria (dependency : String) (names : NameSet)
  | identicalEndpoints
deriving DecidableEq

def RecordFault.message (r : AuditRecord) : RecordFault → String
  | misfiled package filed =>
    s!"{r.describe} names package {Text.quoted package} but is filed under {Text.quoted filed}"
  | noCriteria => s!"{r.describe} claims no criteria"
  | unknownCriteria names => s!"{r.describe} names unknown criteria: {names.listed}"
  | unknownDependencyCriteria dependency names =>
    s!"{r.describe} names unknown criteria for dependency {Text.quoted dependency}: {names.listed}"
  | identicalEndpoints => s!"{r.describe} has identical endpoints"

namespace AuditRecord

/-- The unknown criteria of the first dependency that some are required of. -/
def dependencyFault? (m : CriteriaModel) (r : AuditRecord) : Option RecordFault :=
  r.dependencyCriteria.entries.findSome? fun (dependency, names) =>
    if (m.unknownIn names).isEmpty then none
    else some (.unknownDependencyCriteria dependency (m.unknownIn names))

/-- Whether a record is a review of the change from a version to itself. -/
def isLoop : AuditRecord → Bool
  | delta a => a.start.toRelease == a.target.toRelease
  | _ => false

def fault? (m : CriteriaModel) (filed : String) (r : AuditRecord) : Option RecordFault :=
  if r.package ≠ filed then some (.misfiled r.package filed)
  else if r.criteria.isEmpty then some .noCriteria
  else if !(m.unknownIn r.criteria).isEmpty then some (.unknownCriteria (m.unknownIn r.criteria))
  else match r.dependencyFault? m with
    | some f => some f
    | none => if r.isLoop then some .identicalEndpoints else none

end AuditRecord

end Vetting
