import Vetting.Audit.Record
import Vetting.Json.Printer

/-! Everything that can go wrong, by cause, and what is said about it. An unmet
requirement is no fault: it is part of a report. -/

namespace Vetting

inductive Problem where
  | topNotMapping
  | topNotObject
  | notMapping
  | sectionNotMapping (name : String)
  | sectionNotList (name : String)
  | notEntries
  | notEntryList
  | notDependencyMapping
  | notDeltaMapping
  | notStats
  | notNames
  | notFlag (value : Json)
  | needsKind
  | notDelta
  | needsPublisher
  | needsUrl
  | needsVersion
  | needsMapping
  | needsPackage
  | needsEndpoints
  | text (fault : TextFault)
  | unknownPackage (id : PackageId)

def unknownPackageText (id : PackageId) : String := s!"Unknown package node: {id}"

/-- What is wrong, in words that follow the place where it was found. -/
def Problem.clause : Problem → String
  | topNotMapping => ": expected a mapping at the top level"
  | topNotObject => ": expected an object at the top level"
  | notMapping => " must be a mapping"
  | sectionNotMapping name => s!": '{name}' must be a mapping"
  | sectionNotList name => s!": '{name}' must be a list"
  | notEntries => ": expected a mapping of package to entries"
  | notEntryList => ": expected a list of mappings"
  | notDependencyMapping => ": expected a mapping of dependency to criteria"
  | notDeltaMapping => ": expected a mapping of delta to stats"
  | notStats => ": expected a mapping"
  | notNames => ": expected a criterion name or a list of names"
  | notFlag value => s!" must be true or false, got {value.literal}"
  | needsKind => ": needs exactly one of 'version', 'delta' or 'violation'"
  | notDelta => ": delta must look like 'A -> B'"
  | needsPublisher => ": trusted entry needs a 'publisher'"
  | needsUrl => ": needs a 'url'"
  | needsVersion => ": needs a 'version'"
  | needsMapping => ": needs 'ours' and 'theirs'"
  | needsPackage => " needs 'name' and 'version'"
  | needsEndpoints => ": needs 'from' and 'to'"
  | text fault => ": " ++ fault.message
  | unknownPackage id => ": " ++ Text.quoted (unknownPackageText id)

inductive DocumentFault where
  | unreadable (path reason : String)
  | noGraphFile (path : String)
  | problem (place : String) (problem : Problem)

def DocumentFault.message : DocumentFault → String
  | unreadable path reason => s!"Cannot read {path}: {reason}"
  | noGraphFile path => s!"Dependency graph file not found: {path}"
  | problem place p => place ++ p.clause

inductive FetchFault where
  | failed (message : String)
  | unreadable (name : String)
  | notMapping (name : String)
  | unusableCriteria (name : String) (fault : CriteriaFault)

def FetchFault.message : FetchFault → String
  | failed message => message
  | unreadable name => s!"import {name}: invalid document"
  | notMapping name => s!"import {name}: expected a mapping"
  | unusableCriteria name fault => s!"import {name}: unusable criteria table: {fault.message}"

/-- What can go wrong. A value is ill-shaped when it is used in a way that no reader checks;
a file cannot be written when a directory is in its place, or a file on the way to it. -/
inductive Fault where
  | text (fault : TextFault)
  | criteria (fault : CriteriaFault)
  | dependencyCycle (ids : List PackageId)
  | unknownPackage (id : PackageId)
  | record (record : AuditRecord) (fault : RecordFault)
  | document (fault : DocumentFault)
  | fetch (fault : FetchFault)
  | unwritable (path : String)
  | illShaped

def Fault.message : Fault → String
  | text f => f.message
  | criteria f => f.message
  | dependencyCycle ids =>
    "Dependency graph contains a cycle: " ++ " -> ".intercalate (ids.map toString)
  | unknownPackage id => unknownPackageText id
  | record r f => f.message r
  | document f => f.message
  | fetch f => f.message
  | unwritable path => s!"cannot write {path}"
  | illShaped => "ill-shaped value"

/-- Faults that a command reports as an error; the others are accidents. -/
def Fault.isReported : Fault → Bool
  | text _ => false
  | unknownPackage _ => false
  | unwritable _ => false
  | illShaped => false
  | _ => true

/-- A fault in the criteria or the dependency graph, which makes every verdict meaningless. -/
def Fault.isConfiguration : Fault → Bool
  | criteria _ => true
  | dependencyCycle _ => true
  | _ => false

def liftText {α : Type} (r : Except TextFault α) : Except Fault α := r.mapError .text

def liftCriteria {α : Type} (r : Except CriteriaFault α) : Except Fault α := r.mapError .criteria

end Vetting
