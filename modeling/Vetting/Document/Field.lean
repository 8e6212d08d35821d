import Vetting.Fault

/-! Reading fields of data files. Every reader is told where it reads, so that a fault
names the place. -/

namespace Vetting.Document

abbrev Read (α : Type) := Except Fault α

def fail {α : Type} (place : String) (problem : Problem) : Read α :=
  .error (.document (.problem place problem))

/-- The members of a value that has to be an object. -/
def members : Json → Read Json.Members
  | .obj ms => .ok ms
  | _ => .error .illShaped

/-- The value of a field; null when the field is not there. -/
def field (entry : Json.Members) (name : String) : Json := (entry.lookup name).getD .null

/-- The parts that a value is made of: those of a list, the characters of a text, the
names of an object. Other values have none and are ill-shaped here. -/
def parts : Json → Read (List Json)
  | .arr items => .ok items
  | .str s => .ok (s.toList.map fun c => .str (String.singleton c))
  | .obj ms => .ok (ms.map fun m => .str m.1)
  | _ => .error .illShaped

def version (value : Json) (place : String) : Read Version :=
  match Version.parse value.asText with
  | .ok v => .ok v
  | .error f => fail place (.text f)

def range (value : Json) (place : String) : Read VersionRange :=
  match VersionRange.parse value.asText with
  | .ok r => .ok r
  | .error f => fail place (.text f)

/-- The texts of a list that holds nothing else. -/
def texts? : List Json → Option (List String)
  | [] => some []
  | .str s :: rest => (texts? rest).map (s :: ·)
  | _ :: _ => none

/-- A set of names: nothing, one name, or a list of names. -/
def names (value : Json) (place : String) : Read NameSet :=
  match value with
  | .null => .ok ∅
  | .str s => .ok (.single s)
  | .arr items =>
    match texts? items with
    | some l => .ok (NameSet.ofList l)
    | none => fail place .notNames
  | _ => fail place .notNames

def who : Json → Read (List String)
  | .null => .ok []
  | .str s => .ok [s]
  | value => (parts value).map fun l => l.map Json.asText

/-- A Boolean field; words for it are refused. -/
def flag (entry : Json.Members) (name : String) (default : Json) (place : String) : Read Bool :=
  match (entry.lookup name).getD default with
  | .bool b => .ok b
  | value => fail s!"{place}.{name}" (.notFlag value)

def dependencyCriteria (value : Json) (place : String) : Read DependencyCriteria :=
  match value with
  | .null => .ok ∅
  | .obj ms => do
    let entries ← ms.mapM fun (dependency, value) => do
      let set ← names value s!"{place}.{dependency}"
      pure (dependency, set)
    pure (NameMap.ofList entries)
  | _ => fail place .notDependencyMapping

/-- The members of every value of a list that holds nothing but objects. -/
def objects? : List Json → Option (List Json.Members)
  | [] => some []
  | .obj ms :: rest => (objects? rest).map (ms :: ·)
  | _ :: _ => none

def packageEntries (value : Json) (place : String) : Read (List (String × List Json.Members)) :=
  match value with
  | .null => .ok []
  | .obj ms => ms.mapM fun (package, value) =>
    match value with
    | .arr items =>
      match objects? items with
      | some entries => .ok (package, entries)
      | none => fail s!"{place}.{package}" .notEntryList
    | _ => fail s!"{place}.{package}" .notEntryList
  | _ => fail place .notEntries

def indexed {α β : Type} (read : Nat → α → Read β) (l : List α) : Read (List β) :=
  l.zipIdx.mapM fun (a, i) => read i a

def eachEntry {β : Type} (value : Json) (place : String)
    (read : String → Json.Members → String → Read β) : Read (List β) := do
  let sections ← packageEntries value place
  let read ← sections.mapM fun (package, entries) =>
    indexed (fun i entry => read package entry s!"{place}.{package}[{i}]") entries
  pure read.flatten

end Vetting.Document
