import Vetting.Document.Criteria

/-! The audits file: audits and violations by package, and grants to publishers. -/

namespace Vetting.Document

def auditsFile : String := "audits.yaml"

/-- The parts of a delta: the versions before and after its arrow. -/
def arrow? (s : String) : Option (String × String) :=
  (Text.cut? ['-', '>'] s.toList).map fun (a, b) => (String.ofList a, String.ofList b)

/-- The fields that tell what an entry of the audits section is; it needs exactly one. -/
def kindFields (entry : Json.Members) : List (String × Json) :=
  ["version", "delta", "violation"].filterMap fun k => (entry.lookup k).map fun v => (k, v)

/-- One entry of the audits section: a full audit, a delta audit or a violation. -/
def auditEntry (package : String) (entry : Json.Members) (place : String) : Read AuditRecord := do
  let criteria ← names (field entry "criteria") s!"{place}.criteria"
  let who ← Document.who (field entry "who")
  let notes := field entry "notes"
  let aggregatedFrom ← parts ((field entry "aggregated-from").orElse (.arr []))
  let dependencyCriteria ←
    Document.dependencyCriteria (field entry "dependency-criteria") s!"{place}.dependency-criteria"
  match kindFields entry with
  | [("version", value)] =>
    let version ← Document.version value place
    pure (.full { package, version, criteria, who, notes, aggregatedFrom, dependencyCriteria })
  | [("delta", value)] =>
    match arrow? value.asText with
    | none => fail place .notDelta
    | some (before, after) =>
      let start ← Document.version (.str before) place
      let target ← Document.version (.str after) place
      pure (.delta
        { package, start, target, criteria, who, notes, aggregatedFrom, dependencyCriteria })
  | [("violation", value)] =>
    let versions ← range value place
    pure (.violation { package, versions, criteria, who, notes, aggregatedFrom })
  | _ => fail place .needsKind

def grantEntry (package : String) (entry : Json.Members) (place : String) : Read AuditRecord := do
  let publisher := field entry "publisher"
  if !publisher.isGiven then fail place .needsPublisher
  let versions ← range ((entry.lookup "versions").getD (.str "*")) place
  let criteria ← names (field entry "criteria") s!"{place}.criteria"
  let aggregatedFrom ← parts ((field entry "aggregated-from").orElse (.arr []))
  let notes := field entry "notes"
  pure (.grant
    { package, versions, criteria, publisher := publisher.asText, notes, aggregatedFrom })

/-- The records of an audits file: its audits, then its grants. -/
def auditRecords (file : Json.Members) (place : String := auditsFile) :
    Read (List AuditRecord) := do
  let audits ← eachEntry (field file "audits") s!"{place}: audits" auditEntry
  let grants ← eachEntry (field file "trusted") s!"{place}: trusted" grantEntry
  pure (audits ++ grants)

end Vetting.Document
