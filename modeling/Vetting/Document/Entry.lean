import Vetting.Document.Audits

/-! Writing audits: the entry of a record, and the audits file with an entry more. -/

namespace Vetting.Document

/-- Fields of an entry that are written only where they say something. -/
def given (name : String) (value : Json) : Json.Members :=
  if value.isGiven then [(name, value)] else []

def nameList (s : NameSet) : Json := .arr (s.toList.map .str)

/-- Reviewers: one alone, or several as a list. -/
def whoValue : List String → Json
  | [] => .null
  | [one] => .str one
  | several => .arr (several.map .str)

/-- Reviewers, where there are any: even one without a name. -/
def whoField (who : List String) : Json.Members :=
  if who.isEmpty then [] else [("who", whoValue who)]

def dependencyField (d : DependencyCriteria) : Json.Members :=
  given "dependency-criteria" <|
    .obj (d.entries.map fun (dependency, set) => (dependency, nameList set))

def fullEntry (a : FullAudit) : Json.Members :=
  [("criteria", nameList a.criteria), ("version", .str a.version.text)] ++
    whoField a.who ++ given "notes" a.notes ++ dependencyField a.dependencyCriteria

def deltaEntry (a : DeltaAudit) : Json.Members :=
  [("criteria", nameList a.criteria), ("delta", .str s!"{a.start} -> {a.target}")] ++
    whoField a.who ++ given "notes" a.notes ++ dependencyField a.dependencyCriteria

/-- The entry of a review; no other records are written. -/
def entryOf : AuditRecord → Read Json.Members
  | .full a => .ok (fullEntry a)
  | .delta a => .ok (deltaEntry a)
  | _ => .error .illShaped

/-- The audits section with an entry behind those of its package. -/
def appendEntry (audits : Json) (package : String) (entry : Json.Members) : Read Json := do
  match audits.orElse (.obj []) with
  | .obj ms =>
    match (ms.lookup package).getD (.arr []) with
    | .arr entries => pure (.obj (Json.Members.put package (.arr (entries ++ [.obj entry])) ms))
    | _ => .error .illShaped
  | _ => .error .illShaped

/-- The audits file with a record behind those of its package. -/
def appendAudit (file : Json.Members) (r : AuditRecord) : Read Json.Members := do
  let entry ← entryOf r
  let audits ← appendEntry (field file "audits") r.package entry
  pure (Json.Members.put "audits" audits file)

end Vetting.Document
