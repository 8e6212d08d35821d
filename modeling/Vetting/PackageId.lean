import Vetting.Version.Order
import Vetting.Version.Text

/-! One version of one package. Two such names with the same key mean the same
thing, however their build metadata differ. -/

namespace Vetting

/-- What identifies a version of a package. -/
structure PackageKey where
  package : String
  release : Release
deriving DecidableEq, Inhabited

structure PackageId where
  package : String
  version : Version
deriving DecidableEq, Inhabited

namespace PackageId

def key (id : PackageId) : PackageKey := ⟨id.package, id.version.toRelease⟩

/-- By package name, then by precedence of the version. -/
def precedes (a b : PackageId) : Bool :=
  decide (a.package < b.package) ||
    (a.package == b.package && a.version.toRelease.precedes b.version.toRelease)

def sort (ids : List PackageId) : List PackageId := sortBy precedes ids

/-- The name in front of a separator, if it is not blank, and the version after it. -/
def cutAt (sep : Char) (cs : List Char) : Option (String × String) :=
  match Text.cut? [sep] cs with
  | none => none
  | some (name, version) =>
    if (Text.stripped name).isEmpty then none
    else some (String.ofList (Text.stripped name), String.ofList version)

/-- Read `name@version`, or `name:version`; the first separator is the one that counts. -/
def parse (text : String) : Except TextFault PackageId :=
  match (cutAt '@' text.toList).or (cutAt ':' text.toList) with
  | some (name, version) => (Version.parse version).map fun v => ⟨name, v⟩
  | none => .error (.notPackageId text)

instance : ToString PackageId := ⟨fun id => s!"{id.package}@{id.version}"⟩

end PackageId

end Vetting
