import Vetting.Document.Field

/-! The criteria section of a data file. -/

namespace Vetting.Document

structure CriteriaEntry where
  name : String
  description : Json
  descriptionUrl : Json
  implies : NameSet

def criteriaEntries (value : Json) (place : String) : Read (List CriteriaEntry) :=
  match value with
  | .null => .ok []
  | .obj ms => ms.mapM fun (name, value) =>
    match value.orElse (.obj []) with
    | .obj entry => do
      let implies ← names (field entry "implies") s!"{place}: criteria.{name}.implies"
      let description := (entry.lookup "description").getD (.str "")
      pure ⟨name, description, field entry "description-url", implies⟩
    | _ => fail s!"{place}: criteria.{name}" .notMapping
  | _ => fail place (.sectionNotMapping "criteria")

def CriteriaEntry.criterion (e : CriteriaEntry) : Criterion :=
  { name := e.name
    description := (e.description.orElse (.str "")).asText
    descriptionUrl := e.descriptionUrl
    implies := e.implies }

def modelOf (entries : List CriteriaEntry) : Except CriteriaFault CriteriaModel :=
  CriteriaModel.ofList (entries.map CriteriaEntry.criterion)

/-- An entry of a table that was not brought into the form of a data file: what it implies
may hold values that are no names. -/
structure LooseEntry extends CriteriaEntry where
  strays : List Json

/-- Names and other values apart. A list or an object among them is ill-shaped. -/
def sortImplied : List Json → Read (List String × List Json)
  | [] => .ok ([], [])
  | .arr _ :: _ => .error .illShaped
  | .obj _ :: _ => .error .illShaped
  | .str s :: rest => (sortImplied rest).map fun (names, strays) => (s :: names, strays)
  | v :: rest => (sortImplied rest).map fun (names, strays) => (names, v :: strays)

def looseEntries (value : Json) : Read (List LooseEntry) := do
  let ms ← members value
  ms.mapM fun (name, value) => do
    let entry ← members value
    let implied ← match entry.lookup "implies" with
      | none => pure []
      | some (.str s) => pure [.str s]
      | some v => parts v
    let (names, strays) ← sortImplied implied
    pure
      { name, description := field entry "description"
        descriptionUrl := field entry "description_url"
        implies := NameSet.ofList names, strays }

/-- The stray that a fault shows: the one that counts for least. -/
def firstStray? (strays : List Json) : Option Json := (sortBy Json.countsLess strays).head?

def LooseEntry.fault? (valid : NameSet) (e : LooseEntry) : Option CriteriaFault :=
  match firstStray? e.strays with
  | some v => some (.notName v.literal valid (CriteriaModel.impliesOf e.name))
  | none => CriteriaModel.impliedFault? valid e.criterion

/-- The model of a loose table. Names that are taken are reported before strays, and strays
along with unknown names, in the order of the criteria. -/
def looseModel (entries : List LooseEntry) : Except CriteriaFault CriteriaModel :=
  let custom := entries.map fun e => e.criterion
  let valid := CriteriaModel.namesOf (builtinCriteria ++ custom)
  match CriteriaModel.nameFault? [] custom <|> entries.findSome? (LooseEntry.fault? valid) with
  | some f => .error f
  | none => CriteriaModel.ofList custom

end Vetting.Document
