import Vetting.Version.Order
import Vetting.Version.Text

/-! Version ranges: conjunctions of comparisons with a bound, or the wildcard. A
version is in a range exactly when what it was published as is. -/

namespace Vetting

/-- How a range atom compares a version with its bound. -/
inductive Comparator where
  | equal
  | unequal
  | atLeast
  | atMost
  | above
  | below
  | caret
  | tilde
deriving DecidableEq

/-- The comparator in front, and what follows it; a bare bound means compatibility. -/
def Comparator.read : List Char → Comparator × List Char
  | '=' :: '=' :: rest => (.equal, rest)
  | '=' :: rest => (.equal, rest)
  | '!' :: '=' :: rest => (.unequal, rest)
  | '>' :: '=' :: rest => (.atLeast, rest)
  | '<' :: '=' :: rest => (.atMost, rest)
  | '>' :: rest => (.above, rest)
  | '<' :: rest => (.below, rest)
  | '^' :: rest => (.caret, rest)
  | '~' :: rest => (.tilde, rest)
  | rest => (.caret, rest)

structure RangeAtom where
  comparator : Comparator
  bound : Release
deriving DecidableEq

structure VersionRange where
  raw : String
  atoms : List RangeAtom
deriving DecidableEq, Inhabited

namespace RangeAtom

/-- Whether two releases agree up to the left-most number of the first that is not zero. -/
def sameLine (bound r : Release) : Bool :=
  if bound.major ≠ 0 then r.major == bound.major
  else if bound.minor ≠ 0 then r.major == 0 && r.minor == bound.minor
  else r.major == bound.major && r.minor == bound.minor && r.patch == bound.patch

def admits (atom : RangeAtom) (r : Release) : Bool :=
  match atom.comparator with
  | .equal => r == atom.bound
  | .unequal => r != atom.bound
  | .atLeast => r.atLeast atom.bound
  | .atMost => r.atMost atom.bound
  | .above => r.above atom.bound
  | .below => r.precedes atom.bound
  | .caret => r.atLeast atom.bound && sameLine atom.bound r
  | .tilde => r.atLeast atom.bound && r.major == atom.bound.major && r.minor == atom.bound.minor

/-- A character that the text of a bound may have after its first digit. -/
def isBoundChar (c : Char) : Bool := Version.isTagChar c || c = '+'

/-- The text of the bound when nothing but blanks surrounds it. -/
def boundText? (cs : List Char) : Option (List Char) :=
  match cs.dropWhile Text.isBlank with
  | [] => none
  | c :: rest =>
    if Text.isAsciiDigit c && ((rest.dropWhile isBoundChar).all Text.isBlank) then
      some (c :: rest.takeWhile isBoundChar)
    else none

def parse (part : List Char) : Except TextFault RangeAtom :=
  let (op, rest) := Comparator.read (part.dropWhile Text.isBlank)
  match boundText? rest with
  | none => .error (.notRangeAtom (String.ofList part))
  | some bound => (Version.parse (String.ofList bound)).map fun v => ⟨op, v.toRelease⟩

end RangeAtom

namespace VersionRange

/-- Read a range: the wildcard, or atoms separated by commas. -/
def parse (raw : String) : Except TextFault VersionRange :=
  match Text.stripped raw.toList with
  | [] => .error .emptyRange
  | ['*'] => .ok ⟨raw, []⟩
  | cs => ((Text.splitAt ',' cs).mapM RangeAtom.parse).map fun atoms => ⟨raw, atoms⟩

instance : ToString VersionRange := ⟨raw⟩

def isWildcard (range : VersionRange) : Bool := range.atoms.isEmpty

def contains (range : VersionRange) (r : Release) : Bool :=
  range.atoms.all fun atom => atom.admits r.published

/-- The text of the range that holds one published version. -/
def exactText (v : Version) : String := "=" ++ v.published.text

def exact (v : Version) : Except TextFault VersionRange := parse (exactText v)

end VersionRange

end Vetting
