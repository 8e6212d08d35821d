import Vetting.Command.Options
import Vetting.Text.Blank

/-! Help pages: how a command is used, what it is for, and what its options mean, in lines
of limited width. -/

namespace Vetting

/-- The words of a text, put in lines as long as a width allows. -/
def fillFrom (width : Nat) (line : String) : List String → List String
  | [] => [Text.strip line]
  | word :: rest =>
    if line.length + 1 + word.length ≤ width then fillFrom width (line ++ " " ++ word) rest
    else Text.strip line :: fillFrom width word rest

def fill (width : Nat) (s : String) : List String :=
  match (Text.splitAt ' ' s.toList).map String.ofList with
  | [] => []
  | word :: rest => fillFrom width word rest

/-- A text cut behind a word, to keep to a limit. -/
def shortened (limit : Nat) (s : String) : String :=
  if s.length ≤ limit then s else ((fill (limit - 3) s).headD "") ++ "..."

def blanks (n : Nat) : String := String.ofList (List.replicate n ' ')

namespace Help

def pageWidth : Nat := 78

/-- A term in the left column and lines about it in the right one. -/
def row (left : Nat) (term about : String) : List String :=
  match fill (pageWidth - left - 2) about with
  | [] => ["  " ++ term]
  | first :: rest =>
    ("  " ++ term ++ blanks (left - term.length) ++ first) ::
      rest.map fun line => blanks (left + 2) ++ line

/-- Terms under a heading, their explanations in one column. -/
def table (heading : String) (rows : List (String × String)) : List String :=
  let left := rows.foldl (fun width r => max width r.1.length) 0 + 2
  "" :: heading :: rows.flatMap fun (term, about) => row left term about

def paragraph (s : String) : List String :=
  "" :: (fill (pageWidth - 2) s).map fun line => "  " ++ line

end Help

def OptionSpec.term (s : OptionSpec) : String :=
  let names := match s.short with
    | some c => s!"-{c}, {s.name}"
    | none => s.name
  match s.value with
  | some value => s!"{names} {value}"
  | none => names

structure Help where
  usage : String
  paragraphs : List String
  options : List OptionSpec
  commands : List (String × String) := []

def Help.lines (h : Help) : List String :=
  let limit := pageWidth - 6 - h.commands.foldl (fun width c => max width c.1.length) 0
  s!"Usage: {h.usage}" :: h.paragraphs.flatMap paragraph ++
    table "Options:" (h.options.map fun s => (s.term, s.about)) ++
    if h.commands.isEmpty then []
    else table "Commands:" (h.commands.map fun (name, about) => (name, shortened limit about))

def Help.text (h : Help) : String := String.join (h.lines.map (· ++ "\n"))

end Vetting
