import Vetting.Text.Cut

/-! Command-line options: long names with a value behind `=` or in the next argument,
and one-letter names, which may stand together. -/

namespace Vetting

/-- An option by its long name. One that takes a value has a word for it. -/
structure OptionSpec where
  name : String
  short : Option Char := none
  value : Option String := none
  about : String

def OptionSpec.takesValue (s : OptionSpec) : Bool := s.value.isSome

/-- Options in the order given, by name and value, and the arguments that are none. -/
structure Arguments where
  options : List (String × String) := []
  positional : List String := []

namespace Arguments

/-- What one argument gives: options, and the one whose value is the next argument. -/
structure Piece where
  options : List (String × String)
  waiting : Option String := none

/-- A row of one-letter options; one that takes a value takes what is left of the row. -/
def shortPiece (specs : List OptionSpec) : List Char → Option Piece
  | [] => some ⟨[], none⟩
  | c :: cs =>
    match specs.find? fun s => s.short = some c with
    | none => none
    | some s =>
      if s.takesValue then
        if cs.isEmpty then some ⟨[], some s.name⟩ else some ⟨[(s.name, String.ofList cs)], none⟩
      else (shortPiece specs cs).map fun p => { p with options := (s.name, "") :: p.options }

/-- A long option, with the value that follows its `=`. -/
def longPiece (s : OptionSpec) (value : Option String) : Option Piece :=
  match value with
  | some v => if s.takesValue then some ⟨[(s.name, v)], none⟩ else none
  | none => if s.takesValue then some ⟨[], some s.name⟩ else some ⟨[(s.name, "")], none⟩

def piece (specs : List OptionSpec) (arg : String) : Option Piece :=
  let (name, value) := match Text.cut? ['='] arg.toList with
    | some (name, value) => (String.ofList name, some (String.ofList value))
    | none => (arg, none)
  match specs.find? fun s => s.name = name with
  | some s => longPiece s value
  | none =>
    match arg.toList with
    | '-' :: '-' :: _ => none
    | _ :: cs => shortPiece specs cs
    | [] => none

def isOption (arg : String) : Bool :=
  match arg.toList with
  | '-' :: _ :: _ => true
  | _ => false

/-- Read arguments. Where options stop at the first argument that is none, it and all
behind it are left as they are. -/
def read (specs : List OptionSpec) (mixed : Bool) : List String → Option Arguments
  | [] => some {}
  | arg :: rest =>
    if arg = "--" then some { positional := rest }
    else if isOption arg then
      match piece specs arg with
      | none => none
      | some ⟨options, none⟩ =>
        (read specs mixed rest).map fun a => { a with options := options ++ a.options }
      | some ⟨options, some name⟩ =>
        -- What follows is the value, whatever it looks like.
        match rest with
        | [] => none
        | value :: rest =>
          (read specs mixed rest).map fun a =>
            { a with options := options ++ (name, value) :: a.options }
    else if mixed then
      (read specs mixed rest).map fun a => { a with positional := arg :: a.positional }
    else some { positional := arg :: rest }

variable (a : Arguments)

def values (name : String) : List String :=
  a.options.filterMap fun o => if o.1 = name then some o.2 else none

/-- The value of an option; the last one counts. -/
def value? (name : String) : Option String := (a.values name).getLast?

def has (name : String) : Bool := !(a.values name).isEmpty

end Arguments

end Vetting
