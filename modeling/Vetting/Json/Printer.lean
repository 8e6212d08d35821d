import Vetting.Json.Value
import Vetting.Text.Quoted

/-! Printing document values: as JSON in one line or indented by two spaces, both
in ASCII, and as the literal that a message shows. -/

namespace Vetting.Json

/-- A decimal with a point, at least one place, and no needless zero at the end. -/
def decimalText (mantissa : Int) (places : Nat) : String :=
  let ds := Nat.toDigits 10 mantissa.natAbs
  let ds := List.replicate (places + 1 - ds.length) '0' ++ ds
  let whole := ds.take (ds.length - places)
  let fraction := ((ds.drop (ds.length - places)).reverse.dropWhile (· = '0')).reverse
  let fraction := if fraction.isEmpty then ['0'] else fraction
  (if mantissa < 0 then "-" else "") ++ String.ofList (whole ++ '.' :: fraction)

def unitEscape (u : Nat) : List Char := '\\' :: 'u' :: Text.hexadecimal 4 u

def asciiChar (c : Char) : List Char :=
  if c = '"' || c = '\\' then ['\\', c]
  else if c = '\n' then ['\\', 'n']
  else if c = '\r' then ['\\', 'r']
  else if c = '\t' then ['\\', 't']
  else if c = '\x08' then ['\\', 'b']
  else if c = '\x0c' then ['\\', 'f']
  else if 32 ≤ c.toNat && c.toNat < 127 then [c]
  else if c.toNat < 0x10000 then unitEscape c.toNat
  else
    let rest := c.toNat - 0x10000
    unitEscape (0xd800 + rest / 0x400) ++ unitEscape (0xdc00 + rest % 0x400)

/-- A text in double quotes, with everything but printable ASCII escaped. -/
def asciiQuoted (s : String) : String :=
  String.ofList ('"' :: s.toList.flatMap asciiChar ++ ['"'])

def scalarText : Json → String
  | null => "null"
  | bool b => if b then "true" else "false"
  | int n => toString n
  | decimal m p => decimalText m p
  | str s => asciiQuoted s
  | arr _ => "[]"
  | obj _ => "\x7b\x7d"

mutual

def compact : Json → String
  | arr items => "[" ++ ", ".intercalate (compactItems items) ++ "]"
  | obj members => "\x7b" ++ ", ".intercalate (compactMembers members) ++ "\x7d"
  | v => scalarText v

def compactItems : List Json → List String
  | [] => []
  | v :: rest => compact v :: compactItems rest

def compactMembers : List (String × Json) → List String
  | [] => []
  | (name, v) :: rest => (asciiQuoted name ++ ": " ++ compact v) :: compactMembers rest

end

/-- The start of a line at a depth of nesting. -/
def lineStart (depth : Nat) : String := "\n" ++ String.ofList (List.replicate (2 * depth) ' ')

mutual

/-- The value over several lines, at a depth of nesting. -/
def indented (depth : Nat) : Json → String
  | arr (v :: rest) =>
    "[" ++ lineStart (depth + 1) ++
      ("," ++ lineStart (depth + 1)).intercalate (indentedItems (depth + 1) (v :: rest)) ++
      lineStart depth ++ "]"
  | obj (m :: rest) =>
    "\x7b" ++ lineStart (depth + 1) ++
      ("," ++ lineStart (depth + 1)).intercalate (indentedMembers (depth + 1) (m :: rest)) ++
      lineStart depth ++ "\x7d"
  | v => scalarText v

def indentedItems (depth : Nat) : List Json → List String
  | [] => []
  | v :: rest => indented depth v :: indentedItems depth rest

def indentedMembers (depth : Nat) : List (String × Json) → List String
  | [] => []
  | (name, v) :: rest =>
    (asciiQuoted name ++ ": " ++ indented depth v) :: indentedMembers depth rest

end

def pretty (v : Json) : String := indented 0 v

mutual

/-- The value as a message shows it: texts quoted, absent and Boolean values by name. -/
def literal : Json → String
  | null => "None"
  | bool b => if b then "True" else "False"
  | int n => toString n
  | decimal m p => decimalText m p
  | str s => Text.quoted s
  | arr items => "[" ++ ", ".intercalate (literalItems items) ++ "]"
  | obj members => "\x7b" ++ ", ".intercalate (literalMembers members) ++ "\x7d"

def literalItems : List Json → List String
  | [] => []
  | v :: rest => literal v :: literalItems rest

def literalMembers : List (String × Json) → List String
  | [] => []
  | (name, v) :: rest => (Text.quoted name ++ ": " ++ literal v) :: literalMembers rest

end

/-- The value read as text: a text is itself, anything else its literal. -/
def asText : Json → String
  | str s => s
  | v => literal v

end Vetting.Json
