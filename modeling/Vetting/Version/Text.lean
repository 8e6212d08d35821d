import Vetting.Version.Basic
import Vetting.Text.Cut
import Vetting.Text.Digit
import Vetting.Text.Fault

/-! The text of a version: `major.minor.patch`, then a pre-release after `-`, build
metadata after `+`, and a revision after `@git:`. -/

namespace Vetting.Version

/-- A number without needless zeros in front. Only its first digit has to be ASCII. -/
def number? : List Char → Option (Nat × List Char)
  | [] => none
  | c :: cs =>
    if c = '0' then some (0, cs)
    else if '1' ≤ c && c ≤ '9' then
      some (Text.number (c :: cs.takeWhile Text.isDecimalDigit), cs.dropWhile Text.isDecimalDigit)
    else none

/-- A character of pre-release identifiers and build metadata, the point included. -/
def isTagChar (c : Char) : Bool :=
  Text.isAsciiDigit c || Text.isAsciiLetter c || c = '-' || c = '.'

/-- The tag after its mark; empty where the mark does not follow. -/
def tag? (mark : Char) : List Char → Option (List Char × List Char)
  | [] => some ([], [])
  | c :: cs =>
    if c = mark then
      match cs.takeWhile isTagChar with
      | [] => none
      | tag => some (tag, cs.dropWhile isTagChar)
    else some ([], c :: cs)

def identifiers : List Char → List String
  | [] => []
  | tag => (Text.splitAt '.' tag).map String.ofList

def published? (cs : List Char) : Option Version := do
  let (major, cs) ← number? cs
  let cs ← Text.dropStart? ['.'] cs
  let (minor, cs) ← number? cs
  let cs ← Text.dropStart? ['.'] cs
  let (patch, cs) ← number? cs
  let (pre, cs) ← tag? '-' cs
  let (build, cs) ← tag? '+' cs
  if cs.isEmpty then
    some { major, minor, patch, pre := identifiers pre, build := String.ofList build }
  else none

/-- The kind of revision that a version can be pinned to. -/
def revisionMark : List Char := ['g', 'i', 't', ':']

/-- Read a version; blanks around it and around its `@` do not count. -/
def parse (text : String) : Except TextFault Version :=
  let raw := Text.stripped text.toList
  match Text.cut? ['@'] raw with
  | none =>
    match published? raw with
    | some v => .ok v
    | none => .error (.notVersion text)
  | some (front, back) =>
    match Text.dropStart? revisionMark (Text.stripped back) with
    | some (c :: cs) =>
      match published? (Text.stripped front) with
      | some v => .ok { v with revision := some (String.ofList (c :: cs)) }
      | none => .error (.notVersion text)
    | _ => .error (.unknownRevision text)

def text (v : Version) : String :=
  s!"{v.major}.{v.minor}.{v.patch}" ++
    (if v.pre.isEmpty then "" else "-" ++ ".".intercalate v.pre) ++
    (if v.build.isEmpty then "" else "+" ++ v.build) ++
    (match v.revision with
      | some r => "@git:" ++ r
      | none => "")

instance : ToString Version := ⟨text⟩

end Vetting.Version
