import Vetting.Document.Audits
import Vetting.Suggestion.Cost

/-! The file of recorded diffs: by package and change, how much was inserted and deleted. -/

namespace Vetting.Document

def diffsFile : String := "diffcache.yaml"

/-- The whole number nearest to a quotient, the even one of two. -/
def nearest (a b : Nat) : Nat :=
  if 2 * (a % b) < b ∨ 2 * (a % b) = b ∧ a / b % 2 = 0 then a / b else a / b + 1

/-- The whole part of a quotient that was rounded to a double, which has 53 binary digits. -/
def doublePart (a b : Nat) : Nat :=
  let digits := if a < b then 0 else Nat.log2 (a / b) + 1
  if digits ≤ 53 then nearest (a <<< (53 - digits)) b >>> (53 - digits)
  else nearest a (b <<< (digits - 53)) <<< (digits - 53)

theorem nearest_mul (n : Nat) {b : Nat} (hb : 0 < b) : nearest (n * b) b = n := by
  simp [nearest, Nat.mul_mod_left, Nat.mul_div_cancel n hb, hb]

/-- Whole numbers of up to 53 binary digits are kept. -/
theorem doublePart_mul {n b : Nat} (hb : 0 < b) (hn : n.log2 < 53) : doublePart (n * b) b = n := by
  have hdigits : (if n * b < b then 0 else Nat.log2 (n * b / b) + 1) ≤ 53 := by
    split
    · exact Nat.zero_le 53
    · rw [Nat.mul_div_cancel n hb]
      exact hn
  have hshift : ∀ k, nearest ((n * b) <<< k) b >>> k = n := by
    intro k
    rw [Nat.shiftLeft_eq, Nat.mul_right_comm, nearest_mul _ hb, Nat.shiftRight_eq_div_pow]
    exact Nat.mul_div_cancel n (Nat.two_pow_pos k)
  rw [doublePart, if_pos hdigits, hshift]

/-- Whether a quotient is rounded to a double that is not infinite. -/
def isFiniteDouble (a b : Nat) : Bool := decide (a < (1 <<< 1024 - 1 <<< 970) * b)

/-- The whole number that a value stands for: decimals are rounded to doubles and lose their
places. -/
def wholeNumber : Json → Read Int
  | .bool b => .ok (if b then 1 else 0)
  | .int n => .ok n
  | .decimal m p =>
    if isFiniteDouble m.natAbs (Nat.pow 10 p) then
      .ok (m.sign * doublePart m.natAbs (Nat.pow 10 p))
    else .error (.text .infinite)
  | .str s =>
    match Text.wholeNumber? s with
    | some n => .ok n
    | none => .error (.text (.notWholeNumber s))
  | _ => .error .illShaped

def diffEntry (package place delta : String) (value : Json) : Read DiffEntry := do
  let (start, target) ← match arrow? delta with
    | some (before, after) => do
      let start ← version (.str before) place
      let target ← version (.str after) place
      pure (some start, target)
    | none => do
      let target ← version (.str delta) place
      pure (none, target)
  match value with
  | .obj entry =>
    let insertions ← wholeNumber ((entry.lookup "insertions").getD (.int 0))
    let deletions ← wholeNumber ((entry.lookup "deletions").getD (.int 0))
    let filesChanged ← wholeNumber ((entry.lookup "files_changed").getD (.int 0))
    pure { package, start, target, stat := { insertions, deletions, filesChanged } }
  | _ => fail s!"{place}.{delta}" .notStats

def diffs (file : Json.Members) : Read DiffTable := do
  match (field file "diffs").orElse (.obj []) with
  | .obj packages =>
    let entries ← packages.mapM fun (package, value) =>
      let place := s!"{diffsFile}: diffs.{package}"
      match value with
      | .obj deltas => deltas.mapM fun (delta, value) => diffEntry package place delta value
      | _ => fail place .notDeltaMapping
    pure (DiffTable.ofEntries entries.flatten)
  | _ => fail diffsFile (.sectionNotMapping "diffs")

end Vetting.Document
