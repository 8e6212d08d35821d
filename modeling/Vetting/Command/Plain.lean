import Vetting.Command.Printed

/-! Plain text of what commands print: markup dropped, the cells of a table in columns. -/

namespace Vetting

/-- Whether what follows a bracket makes it the start of a tag. -/
def startsTag : List Char → Bool
  | c :: cs => (c.isLower || c = '/') && cs.contains ']' && !(cs.takeWhile (· ≠ ']')).contains '['
  | [] => false

def withoutMarkup (inTag : Bool) : List Char → List Char
  | [] => []
  | c :: cs =>
    if inTag then withoutMarkup (c ≠ ']') cs
    else if c = '[' && startsTag cs then withoutMarkup true cs
    else c :: withoutMarkup false cs

def padded (width : Nat) (s : String) : String :=
  s ++ String.ofList (List.replicate (width - s.length) ' ')

def widths (rows : List (List String)) : List Nat :=
  rows.foldl (fun ws row =>
    (List.range (max ws.length row.length)).map fun i =>
      max (ws.getD i 0) (row.getD i "").length) []

def rowText (ws : List Nat) (row : List String) : String :=
  "  ".intercalate ((row.zip ws).map fun (cell, w) => padded w cell)

def Printed.plain : Printed → String
  | line s => String.ofList (withoutMarkup false s.toList)
  | table title columns rows =>
    let flat := rows.map fun row => row.map fun cell =>
      String.ofList (cell.toList.map fun c => if c = '\n' then ';' else c)
    let ws := widths (columns :: flat)
    "\n".intercalate (title :: (columns :: flat).map (rowText ws))
  | panel title text _ => s!"{title}: {text}"

end Vetting
