import Vetting.Document.Config
import Vetting.Warning

/-! Imported audits: records of a foreign database in terms of local criteria. A local
criterion is granted when all the foreign ones mapped to it are claimed or implied; a
violation denies only what it names. -/

namespace Vetting

open Document

namespace ImportSource

variable (source : ImportSource)

/-- Where faults of a foreign document are found. -/
def place : String := s!"import {source.name}"

/-- The local names of mappings whose foreign names are all in a set. -/
def mapped (theirs : NameSet) : NameSet :=
  NameSet.ofList ((source.criteriaMap.filter fun m =>
    !m.theirs.isEmpty && m.theirs.within theirs).map CriteriaMapping.ours)

/-- What claimed foreign criteria become: built-in ones that they imply stay themselves. -/
def mapClaimed (foreign : CriteriaModel) (claimed : NameSet) : NameSet :=
  let closure := foreign.expand (claimed.filter fun c => decide (c ∈ foreign))
  builtinNames.filter (fun c => decide (c ∈ closure)) ∪ source.mapped closure

/-- What denied foreign criteria become, nothing added for what implies them. -/
def mapDenied (denied : NameSet) : NameSet := denied.filter isBuiltin ∪ source.mapped denied

/-- What criteria of dependencies become; a dependency left with none is left out. -/
def mapDependencies (foreign home : CriteriaModel) (d : DependencyCriteria) :
    DependencyCriteria :=
  NameMap.ofList <| d.entries.filterMap fun (dependency, names) =>
    let names := (source.mapClaimed foreign names).filter fun c => decide (c ∈ home)
    if names.isEmpty then none else some (dependency, names)

/-- The local criteria that a foreign record is about. -/
def mapRecord (foreign home : CriteriaModel) (r : AuditRecord) : NameSet :=
  let names := match r with
    | .violation v => source.mapDenied v.criteria
    | r => source.mapClaimed foreign r.criteria
  names.filter fun c => decide (c ∈ home)

/-- A record about other criteria, come through this import. -/
def relabel (foreign home : CriteriaModel) (criteria : NameSet) (r : AuditRecord) : AuditRecord :=
  let name := Json.str source.name
  match r with
  | .full a => .full { a with
      criteria, aggregatedFrom := a.aggregatedFrom ++ [name]
      dependencyCriteria := source.mapDependencies foreign home a.dependencyCriteria }
  | .delta a => .delta { a with
      criteria, aggregatedFrom := a.aggregatedFrom ++ [name]
      dependencyCriteria := source.mapDependencies foreign home a.dependencyCriteria }
  | .grant g => .grant { g with criteria, aggregatedFrom := g.aggregatedFrom ++ [name] }
  | .violation v => .violation { v with criteria, aggregatedFrom := v.aggregatedFrom ++ [name] }
  | .exemption e => .exemption { e with
      criteria
      dependencyCriteria := source.mapDependencies foreign home e.dependencyCriteria }

/-- The local record of a foreign one, if it is about any local criterion. -/
def adopt? (foreign home : CriteriaModel) (r : AuditRecord) : Option AuditRecord :=
  let criteria := source.mapRecord foreign home r
  if criteria.isEmpty then none else some (source.relabel foreign home criteria r)

def foreignModel (document : Json.Members) : Read CriteriaModel := do
  let entries ← criteriaEntries (field document "criteria") source.place
  match modelOf entries with
  | .ok m => pure m
  | .error f => .error (.fetch (.unusableCriteria source.name f))

/-- The records of a foreign document that are not of excluded packages. -/
def foreignRecords (document : Json.Members) : Read (List AuditRecord) := do
  let records ← auditRecords document source.place
  pure (records.filter fun r => decide (r.package ∉ source.exclude))

/-- The local records of a foreign document. Each record that is about no local criterion
is left out with a warning. -/
def adopt (document : Json.Members) (home : CriteriaModel) : Logged (List AuditRecord) := do
  let foreign ← Logged.lift (source.foreignModel document)
  let records ← Logged.lift (source.foreignRecords document)
  Logged.warn ((records.filter fun r => (source.adopt? foreign home r).isNone).map fun r =>
    .dropped r source.name)
  pure (records.filterMap (source.adopt? foreign home))

end ImportSource

end Vetting
