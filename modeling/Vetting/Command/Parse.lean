import Vetting.Command.Help
import Vetting.Text.Digit
import Vetting.Workspace.Load

/-! The commands and their options. A command line that cannot be read has no command. -/

namespace Vetting

structure VetOptions where
  store : Path
  graph : Path
  locked : Bool
  strict : Bool
  json : Bool

structure CertifyOptions where
  store : Path
  package : String
  version : String
  start : Option String
  criteria : List String
  who : List String
  notes : Option String

inductive Command where
  | showVersion
  | showHelp (page : Help)
  | check (options : VetOptions) (suggest : Bool)
  | suggest (options : VetOptions) (byDiffs : Bool)
  | certify (options : CertifyOptions)
  | fetchImports (store : Path)
  | criteria (store : Path) (json : Bool)

/-- A command by its name: the names of its arguments, what it is for, its options, and how
they are read. -/
structure CommandSpec where
  name : String
  arguments : List String := []
  paragraphs : List String
  options : List OptionSpec
  read : Files → Arguments → Option Command

namespace Command

def choice (a : Arguments) (name : String) (words : List String) (default : String) :
    Option String :=
  let word := (a.value? name).getD default
  if words.contains word then some word else none

/-- The directory of the store, which must not be a file. -/
def storePath (files : Files) (a : Arguments) : Option Path :=
  let text := (a.value? "--store").getD storeDirectory
  match files.named? text with
  | some (.file _) => none
  | _ => some (.ofText text)

/-- The dependency graph, which has to be a file. -/
def graphPath (files : Files) (a : Arguments) : Option Path := do
  let text ← a.value? "--graph"
  match files.named? text with
  | some (.file _) => some (.ofText text)
  | _ => none

def wantsJson (a : Arguments) : Option Bool :=
  (choice a "--format" ["text", "json"] "text").map fun word => word == "json"

def vetOptions (files : Files) (a : Arguments) : Option VetOptions := do
  let store ← storePath files a
  let graph ← graphPath files a
  let json ← wantsJson a
  pure { store, graph, locked := a.has "--locked", strict := a.has "--strict-exemptions", json }

def isJobs (s : String) : Bool :=
  match Text.wholeNumber? s with
  | some n => 1 ≤ n
  | none => false

def storeOption : OptionSpec :=
  { name := "--store", value := "DIRECTORY"
    about := s!"Store directory holding audits.yaml and config.yaml.  [default: {storeDirectory}]" }

def formatOption : OptionSpec :=
  { name := "--format", value := "[text|json]", about := "Output format (default: text)." }

def helpOption : OptionSpec := { name := "--help", about := "Show this message and exit." }

/-- What vets are about: the store, the graph, and the exemptions that do not count. -/
def vetSpecs : List OptionSpec :=
  [storeOption,
    { name := "--graph", value := "FILE"
      about := "Resolved dependency graph (YAML or JSON).  [required]" },
    { name := "--locked", about := "Ignore every exemption." },
    { name := "--strict-exemptions", about := "Ignore exemptions marked unconfirmed." }]

def checkSpec : CommandSpec where
  name := "check"
  paragraphs :=
    ["Check that every dependency meets the criteria required of it.",
      "Exit code 0 if the vet passes, 1 if it fails, 2 on unusable input."]
  options := vetSpecs ++
    [{ name := "--no-suggest", about := "Do not suggest audits on failure." },
      { name := "--jobs", short := some 'j', value := "INTEGER RANGE"
        about := "Resolve packages on this many threads.  [x>=1]" },
      formatOption]
  read files a := do
    let options ← vetOptions files a
    if isJobs ((a.value? "--jobs").getD "1") then some (.check options (!a.has "--no-suggest"))
    else none

def suggestSpec : CommandSpec where
  name := "suggest"
  paragraphs :=
    ["Suggest audits that would make the vet pass.",
      "Exit code 0 on success, 2 on unusable input."]
  options := vetSpecs ++
    [{ name := "--cost", value := "[version|diffstat]"
       about := "How to rank candidate audits (default: version)." },
      formatOption]
  read files a := do
    let options ← vetOptions files a
    let cost ← choice a "--cost" ["version", "diffstat"] "version"
    pure (.suggest options (cost == "diffstat"))

def certifySpec : CommandSpec where
  name := "certify"
  arguments := ["PACKAGE", "VERSION"]
  paragraphs :=
    ["Record that PACKAGE at VERSION was reviewed.",
      "Exit code 0 on success, 2 on invalid input."]
  options :=
    [storeOption,
      { name := "--from", value := "TEXT", about := "Record a delta audit from this version." },
      { name := "--criteria", value := "TEXT", about := "Criterion to certify (repeatable)." },
      { name := "--who", value := "TEXT", about := "Reviewer identity (repeatable)." },
      { name := "--notes", value := "TEXT", about := "Free-text justification." }]
  read files a := do
    let store ← storePath files a
    match a.positional with
    | [package, version] =>
      some (.certify
        { store, package, version, start := a.value? "--from", criteria := a.values "--criteria",
          who := a.values "--who", notes := a.value? "--notes" })
    | _ => none

def fetchImportsSpec : CommandSpec where
  name := "fetch-imports"
  paragraphs :=
    ["Fetch configured imports into imports.lock.yaml.",
      "Exit code 0 on success, 2 on any fetch or store error."]
  options :=
    [storeOption,
      { name := "--timeout", value := "FLOAT", about := "Per-request timeout in seconds." }]
  read files a := do
    let store ← storePath files a
    if Text.isReal ((a.value? "--timeout").getD "10") then some (.fetchImports store) else none

def criteriaSpec : CommandSpec where
  name := "criteria"
  paragraphs := ["List built-in and custom criteria with their implication closure."]
  options := [storeOption, formatOption]
  read files a := do
    let store ← storePath files a
    let json ← wantsJson a
    pure (.criteria store json)

def specs : List CommandSpec :=
  [certifySpec, checkSpec, criteriaSpec, fetchImportsSpec, suggestSpec]

/-- The name that the program goes by in its messages. -/
def programName : String := "cli"

def helpOn (c : CommandSpec) : Help :=
  { usage := " ".intercalate (programName :: c.name :: "[OPTIONS]" :: c.arguments)
    paragraphs := c.paragraphs, options := c.options ++ [helpOption] }

def leadingOptions : List OptionSpec :=
  [{ name := "--version", about := "Show the version and exit." },
    { name := "--verbose", short := some 'v'
      about := "Log more detail to stderr (-v for info, -vv for debug)." },
    helpOption]

def overview : Help :=
  { usage := s!"{programName} [OPTIONS] COMMAND [ARGS]..."
    paragraphs :=
      ["trustvet: prove every dependency was reviewed for what you need.",
        "Combines audits, delta audits, exemptions, trusted publishers and violations into a " ++
          "per-package verdict, and suggests the smallest reviews that would close any gap."]
    options := leadingOptions
    commands := specs.map fun c => (c.name, c.paragraphs.headD "") }

/-- Read what follows the name of a command. Help is given before anything is missed. -/
def parseFor (c : CommandSpec) (files : Files) (args : List String) : Option Command := do
  let a ← Arguments.read (c.options ++ [helpOption]) true args
  if a.has helpOption.name then some (.showHelp (helpOn c))
  else if c.arguments.isEmpty && !a.positional.isEmpty then none
  else c.read files a

/-- What leading options ask for by themselves: the version or help, whichever comes first. -/
def asked? (a : Arguments) : Option Command :=
  (a.options.find? fun o => o.1 = "--version" || o.1 = helpOption.name).map fun o =>
    if o.1 = "--version" then .showVersion else .showHelp overview

def parse (files : Files) (args : List String) : Option Command := do
  let a ← Arguments.read leadingOptions false args
  match asked? a, a.positional with
  | some c, _ => some c
  | none, [] => none
  | none, name :: rest =>
    match specs.find? fun c => c.name = name with
    | some c => parseFor c files rest
    -- What stands behind `--` and is no command may still ask for the version or help.
    | none => (Arguments.read leadingOptions false a.positional).bind asked?

end Command

end Vetting
