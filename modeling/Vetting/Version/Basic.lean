/-! Versions. What identifies a version is its release: the numeric triple, the
pre-release identifiers and the revision. Build metadata is shown and nothing else. -/

namespace Vetting

/-- The identity of a version. A revision names code on top of what was published. -/
structure Release where
  major : Nat
  minor : Nat
  patch : Nat
  pre : List String := []
  revision : Option String := none
deriving DecidableEq, Inhabited

/-- A release with the build metadata it was written with. -/
structure Version extends Release where
  build : String := ""
deriving DecidableEq, Inhabited

namespace Release

def published (r : Release) : Release := { r with revision := none }

@[simp] theorem published_published (r : Release) : r.published.published = r.published := rfl

theorem published_eq_self {r : Release} (h : r.revision = none) : r.published = r := by
  cases r; cases h; rfl

end Release

def Version.published (v : Version) : Version := { v with revision := none }

@[simp] theorem Version.toRelease_published (v : Version) :
    v.published.toRelease = v.toRelease.published := rfl

end Vetting
