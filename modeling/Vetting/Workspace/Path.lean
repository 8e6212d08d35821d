import Vetting.Text.Cut

/-! Paths of files, without empty and idle parts. -/

namespace Vetting

/-- A path: where it starts, and the names on the way. -/
structure Path where
  absolute : Bool := false
  parts : List String
deriving DecidableEq, Inhabited

namespace Path

def pieces (s : String) : List String := (Text.splitAt '/' s.toList).map String.ofList

/-- Whether a piece stays where it is. -/
def isIdle (piece : String) : Bool := piece == "" || piece == "."

def ofText (s : String) : Path where
  absolute := s.toList.head? = some '/'
  parts := (pieces s).filter (!isIdle ·)

/-- Whether a text asks for a directory, by what stands behind its last slash. -/
def asksDirectory (s : String) : Bool := ((pieces s).getLast?.map isIdle).getD true

/-- The text of a path. The path that leads nowhere is a point. -/
def text (p : Path) : String :=
  let rest := "/".intercalate p.parts
  if p.absolute then "/" ++ rest else if rest.isEmpty then "." else rest

instance : ToString Path := ⟨text⟩

def child (p : Path) (name : String) : Path := { p with parts := p.parts ++ [name] }

def isJson (p : Path) : Bool :=
  match p.parts.getLast? with
  | none => false
  | some name => match name.toList.reverse with
    | 'n' :: 'o' :: 's' :: 'j' :: '.' :: _ :: _ => true
    | _ => false

end Path

end Vetting
