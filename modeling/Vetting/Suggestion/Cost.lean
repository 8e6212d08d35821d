import Vetting.Version.Order

/-! What a review would cost: the distance between two version numbers, or the size of
a recorded diff. Only the order of costs matters. -/

namespace Vetting

/-- The cost of reviewing a package from a version, or in full, up to another version. -/
abbrev CostMetric := String → Option Version → Version → Int

/-- The place of a version on one line. -/
def linePosition (v : Version) : Int := 10000 * v.major + 100 * v.minor + v.patch

/-- The distance on the line, and one more where the pre-releases or revisions differ. A
full review starts at 0.0.0. -/
def versionDistance : CostMetric := fun _ start target =>
  let base := start.getD { major := 0, minor := 0, patch := 0 }
  let gap := (linePosition target - linePosition base).natAbs
  if base.pre ≠ target.pre ∨ base.revision ≠ target.revision then gap + 1 else gap

structure DiffStat where
  insertions : Int
  deletions : Int
  filesChanged : Int := 0
deriving DecidableEq, Inhabited

namespace DiffStat

def count (d : DiffStat) : Int := d.insertions + d.deletions

def text (d : DiffStat) : String :=
  s!"{d.filesChanged} files changed" ++
    (if d.insertions ≠ 0 then s!", {d.insertions} insertions(+)" else "") ++
    (if d.deletions ≠ 0 then s!", {d.deletions} deletions(-)" else "")

end DiffStat

structure DiffEntry where
  package : String
  start : Option Version
  target : Version
  stat : DiffStat

def DiffEntry.isOf (e : DiffEntry) (package : String) (start : Option Version) (target : Version) :
    Bool :=
  e.package == package && e.start.map Version.toRelease == start.map Version.toRelease &&
    e.target.toRelease == target.toRelease

abbrev DiffTable := List DiffEntry

namespace DiffTable

/-- Record a diff; one that is recorded keeps its place and takes the new size. -/
def put (new : DiffEntry) : DiffTable → DiffTable
  | [] => [new]
  | e :: es =>
    if e.isOf new.package new.start new.target then { e with stat := new.stat } :: es
    else e :: put new es

/-- The diffs of a list; of those between the same versions the last counts. -/
def ofEntries (es : List DiffEntry) : DiffTable := es.foldl (fun t e => put e t) []

def find? (t : DiffTable) (package : String) (start : Option Version) (target : Version) :
    Option DiffStat :=
  (List.find? (fun e : DiffEntry => e.isOf package start target) t).map DiffEntry.stat

/-- The lines of the recorded diff, and the distance of versions where none is recorded. -/
def cost (t : DiffTable) : CostMetric := fun package start target =>
  match t.find? package start target with
  | some d => d.count
  | none => versionDistance package start target

end DiffTable

end Vetting
