import Vetting.Text.Quoted

/-! What can be wrong with a text that should spell a value. -/

namespace Vetting

/-- The choices that are written as a fixed word. -/
inductive Choice where
  | dependencyKind
  | exemptionMode
  | vettingStatus
deriving DecidableEq

def Choice.name : Choice → String
  | dependencyKind => "DependencyKind"
  | exemptionMode => "ExemptionMode"
  | vettingStatus => "VettingStatus"

/-- Why a text does not spell the value it should. -/
inductive TextFault where
  | unknownRevision (text : String)
  | notVersion (text : String)
  | emptyRange
  | notRangeAtom (text : String)
  | notPackageId (text : String)
  | notChoice (choice : Choice) (text : String)
  | notWholeNumber (text : String)
  | infinite
  | noVersion
deriving DecidableEq

namespace TextFault

def message : TextFault → String
  | unknownRevision t => s!"Unknown revision kind in version: {Text.quoted t}"
  | notVersion t => s!"Invalid semantic version: {Text.quoted t}"
  | emptyRange => "Empty version range"
  | notRangeAtom t => s!"Invalid version range atom: {Text.quoted t}"
  | notPackageId t => s!"Expected 'package@version', got {Text.quoted t}"
  | notChoice c t => s!"{Text.quoted t} is not a valid {c.name}"
  | notWholeNumber t =>
    "invalid literal for int() with base 10: " ++ String.ofList ((Text.quoted t).toList.take 200)
  | infinite => "cannot convert float infinity to integer"
  | noVersion =>
    "Expected a concrete Version, got None (the audit graph root is not a queryable version)"

end TextFault

end Vetting
