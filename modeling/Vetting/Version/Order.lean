import Vetting.Version.Basic
import Vetting.Text.Digit
import Vetting.Order.Sorting

/-! Precedence of releases: the numeric triple, then the pre-release identifiers,
then the revision. `Release.compare` is a total preorder, so its strict part sorts. -/

namespace Vetting

/-- The value of a pre-release identifier that is a row of ASCII digits. -/
def identifierNumber? (ident : String) : Option Nat :=
  match ident.toList with
  | [] => none
  | cs => if cs.all Text.isAsciiDigit then some (Text.number cs) else none

/-- Numeric identifiers go by value and come before the others, which go by code point. -/
def compareIdentifiers : String → String → Ordering :=
  compareLex (compareOn fun i => (identifierNumber? i).isNone) <|
    compareLex (compareOn fun i => (identifierNumber? i).getD 0) <|
      compareOn fun i => if (identifierNumber? i).isSome then "" else i

instance : Std.TransCmp compareIdentifiers := by unfold compareIdentifiers; infer_instance

/-- Pre-releases, identifier by identifier; a release without any comes after all. -/
def comparePre (p q : List String) : Ordering :=
  compareLex (compareOn List.isEmpty) (List.compareLex compareIdentifiers) p q

instance : Std.TransCmp comparePre :=
  inferInstanceAs (Std.TransCmp (compareLex (compareOn List.isEmpty)
    (List.compareLex compareIdentifiers)))

namespace Release

/-- Precedence: major, minor, patch, pre-release identifiers, revision. -/
def compare (a b : Release) : Ordering :=
  (Ord.compare a.major b.major).then <| (Ord.compare a.minor b.minor).then <|
    (Ord.compare a.patch b.patch).then <| (comparePre a.pre b.pre).then <|
      Ord.compare a.revision b.revision

instance : Std.TransCmp (fun a b : Release => comparePre a.pre b.pre) where
  eq_swap {a b} := @Std.OrientedCmp.eq_swap _ comparePre _ a.pre b.pre
  isLE_trans {a b c} := @Std.TransCmp.isLE_trans _ comparePre _ a.pre b.pre c.pre

instance : Std.TransCmp compare :=
  inferInstanceAs (Std.TransCmp (compareLex (compareOn major) (compareLex (compareOn minor)
    (compareLex (compareOn patch) (compareLex (fun a b : Release => comparePre a.pre b.pre)
      (compareOn revision))))))

def precedes (a b : Release) : Bool := compare a b == .lt

def atLeast (a b : Release) : Bool := !a.precedes b

def atMost (a b : Release) : Bool := a.precedes b || a == b

def above (a b : Release) : Bool := !a.precedes b && a != b

theorem precedes_iff {a b : Release} : a.precedes b = true ↔ compare a b = .lt := beq_iff_eq

theorem not_precedes_self (a : Release) : a.precedes a = false := by
  simp [precedes, Std.ReflCmp.compare_self]

theorem precedes_trans {a b c : Release} (hab : a.precedes b = true) (hbc : b.precedes c = true) :
    a.precedes c = true := by
  rw [precedes_iff] at *
  exact Std.TransCmp.lt_trans hab hbc

theorem not_precedes_iff {a b : Release} : b.precedes a = false ↔ (compare a b).isLE = true := by
  rw [precedes, @Std.OrientedCmp.eq_swap _ compare _ b a]
  cases compare a b <;> decide

theorem precedes_asymm (a b : Release) (h : a.precedes b = true) : b.precedes a = false := by
  rw [not_precedes_iff, precedes_iff.1 h]
  rfl

theorem not_precedes_trans (a b c : Release) (hba : b.precedes a = false)
    (hcb : c.precedes b = false) : c.precedes a = false := by
  rw [not_precedes_iff] at *
  exact Std.TransCmp.isLE_trans hba hcb

end Release

/-- How sets of releases are gone through: the place of a release among all those of a package that
were put into a set. It depends on how they are hashed, so that nothing is presumed of it. -/
class SetOrder where
  place : (package : String) → (members : List Release) → Release → Nat

def SetOrder.before [SetOrder] (package : String) (members : List Release) (a b : Release) : Bool :=
  decide (place package members a < place package members b)

/-- Sets that are gone through as they were filled. -/
@[reducible]
def SetOrder.asMet : SetOrder := ⟨fun _ _ _ => 0⟩

instance (priority := low) : SetOrder := .asMet

namespace Version

def sort (vs : List Version) : List Version :=
  sortBy (fun a b => a.toRelease.precedes b.toRelease) vs

theorem pairwise_sort (vs : List Version) :
    (sort vs).Pairwise fun a b => b.toRelease.precedes a.toRelease = false :=
  pairwise_sortBy (fun a b => Release.precedes_asymm a.toRelease b.toRelease)
    (fun a b c => Release.not_precedes_trans a.toRelease b.toRelease c.toRelease) vs

/-- The set of some versions of a package, each as it was first met, sorted. Releases with the same
precedence stand as the set is gone through. -/
def sortedSet [SetOrder] (package : String) (vs : List Version) : List Version :=
  let met := distinctOn toRelease vs
  let before := SetOrder.before package (met.map toRelease)
  sort (sortBy (fun a b => before a.toRelease b.toRelease) met)

theorem sortedSet_perm [SetOrder] (package : String) (vs : List Version) :
    (sortedSet package vs).Perm (distinctOn toRelease vs) :=
  (sortBy_perm _ _).trans (sortBy_perm _ _)

theorem mem_map_sortedSet [SetOrder] {package : String} {vs : List Version} {r : Release} :
    r ∈ (sortedSet package vs).map toRelease ↔ r ∈ vs.map toRelease :=
  ((sortedSet_perm package vs).map toRelease).mem_iff.trans mem_map_distinctOn

theorem map_toRelease_sortedSet [SetOrder] (package : String) (vs : List Version) :
    (sortedSet package vs).map toRelease =
      let met := distinctOn id (vs.map toRelease)
      sortBy Release.precedes (sortBy (SetOrder.before package met) met) := by
  dsimp only
  rw [← map_distinctOn, ← map_sortBy toRelease, ← map_sortBy toRelease]
  rfl

/-- A version that is in a set already does not change it. -/
theorem sortedSet_append_singleton [SetOrder] {package : String} {vs : List Version} {v : Version}
    (h : v.toRelease ∈ vs.map toRelease) :
    sortedSet package (vs ++ [v]) = sortedSet package vs := by
  rw [sortedSet, distinctOn_append_singleton, if_pos h, sortedSet]

end Version

end Vetting
