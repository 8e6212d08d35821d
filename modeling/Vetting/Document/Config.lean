import Vetting.Document.Audits
import Vetting.Policy

/-! The configuration file: default criteria, policies, exemptions, and where to import
audits from. -/

namespace Vetting

/-- A local criterion that is granted for foreign ones, when all of them are claimed. -/
structure CriteriaMapping where
  ours : String
  theirs : NameSet
deriving Inhabited

/-- A foreign audit database: where it is published, the packages to leave out, and how its
criteria become local ones. -/
structure ImportSource where
  name : String
  url : String
  exclude : NameSet := ∅
  criteriaMap : List CriteriaMapping := []
deriving Inhabited

structure StoreConfig where
  defaultCriteria : String
  policies : PolicyTable
  exemptions : List Exemption
  imports : List ImportSource
deriving Inhabited

namespace Document

def configFile : String := "config.yaml"

/-- A set of names that need not be given. -/
def optionalNames (value : Json) (place : String) : Read (Option NameSet) :=
  match value with
  | .null => .ok none
  | v => (names v place).map some

def policy (package : String) (value : Json) : Read Policy := do
  let place := s!"{configFile}: policy.{package}"
  let entry ← members (value.orElse (.obj []))
  match (field entry "dependency-criteria").orElse (.obj []) with
  | .obj overrides =>
    let criteria ← optionalNames (field entry "criteria") s!"{place}.criteria"
    let devCriteria ← optionalNames (field entry "dev-criteria") s!"{place}.dev-criteria"
    let dependencyCriteria ←
      Document.dependencyCriteria (.obj overrides) s!"{place}.dependency-criteria"
    pure { criteria, devCriteria, dependencyCriteria, notes := field entry "notes" }
  | _ => fail s!"{place}.dependency-criteria" .notMapping

def criteriaMapping (place : String) (i : Nat) (value : Json) : Read CriteriaMapping :=
  match value with
  | .obj entry =>
    match entry.lookup "ours", entry.lookup "theirs" with
    | some ours, some theirs => do
      let theirs ← names theirs s!"{place}.criteria-map[{i}]"
      pure ⟨ours.asText, theirs⟩
    | _, _ => fail s!"{place}.criteria-map[{i}]" .needsMapping
  | _ => fail s!"{place}.criteria-map[{i}]" .needsMapping

/-- One import: its address alone, or an entry. -/
def importSource (name : String) (value : Json) : Read ImportSource := do
  let place := s!"{configFile}: imports.{name}"
  -- An address alone stands for an entry that says nothing else.
  let entry := match value with
    | .str url => [("url", .str url)]
    | .obj ms => ms
    | _ => []
  if !(field entry "url").isGiven then fail place .needsUrl
  let mappings ← parts ((field entry "criteria-map").orElse (.arr []))
  let criteriaMap ← indexed (criteriaMapping place) mappings
  let exclude ← parts ((field entry "exclude").orElse (.arr []))
  pure { name, url := (field entry "url").asText,
         exclude := NameSet.ofList (exclude.map Json.asText), criteriaMap }

/-- One exemption; it is for the default criteria unless it names others. -/
def exemptionEntry (default package : String) (entry : Json.Members) (place : String) :
    Read Exemption := do
  match entry.lookup "version" with
  | none => fail place .needsVersion
  | some value =>
    let version ← Document.version value place
    let criteria ← names ((entry.lookup "criteria").getD (.str default)) s!"{place}.criteria"
    let unconfirmed ← flag entry "unconfirmed" (.bool false) place
    let suggest ← flag entry "suggest" (.bool true) place
    let dependencyCriteria ← Document.dependencyCriteria (field entry "dependency-criteria")
      s!"{place}.dependency-criteria"
    pure { package, version, criteria, unconfirmed, suggest, notes := field entry "notes",
           dependencyCriteria }

def sectionMembers (file : Json.Members) (name place : String) : Read Json.Members :=
  match (field file name).orElse (.obj []) with
  | .obj ms => .ok ms
  | _ => fail place (.sectionNotMapping name)

def config (file : Json.Members) : Read StoreConfig := do
  let default := ((field file "default-criteria").orElse (.str safeToDeploy)).asText
  let policies ← sectionMembers file "policy" configFile
  let policies ← policies.mapM fun (package, value) => do
    let p ← policy package value
    pure (package, p)
  let exemptions ←
    eachEntry (field file "exemptions") s!"{configFile}: exemptions" (exemptionEntry default)
  let imports ← sectionMembers file "imports" configFile
  let imports ← (sortBy (fun a b => decide (a.1 < b.1)) imports).mapM fun (name, value) =>
    importSource name value
  pure { defaultCriteria := default, policies := ⟨NameMap.ofList policies, default⟩, exemptions,
         imports }

end Document

end Vetting
