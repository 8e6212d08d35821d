import Vetting.Command.Plain
import Vetting.Command.Run
import Vetting.Json.Reader

/-! The command line: reads the files that the arguments name, runs the command, and
writes the files that it changed. -/

namespace Vetting

def Place.text (place : Place) : String := "/" ++ "/".intercalate place

def dataFiles (root : Path) : List Path :=
  [Document.auditsFile, Document.configFile, lockFile, Document.diffsFile].map root.child

/-- The paths that arguments may name: the store's, each argument, and what follows its `=`. -/
def namedPaths (args : List String) : List Path :=
  let values := args.filterMap fun arg =>
    (Text.cut? ['='] arg.toList).map fun parts => String.ofList parts.2
  distinctOn Path.text ((storeDirectory :: args ++ values).map Path.ofText)

/-- The places on a way. -/
def placesFrom (here : Place) : List String → List Place
  | [] => [here]
  | name :: rest => here :: placesFrom (here.step name) rest

/-- The text behind a handle. A directory can be opened, but holds no text. -/
def textOf? (handle : IO.FS.Handle) : IO (Option String) := do
  try
    let text ← handle.readToEnd
    pure (some text)
  catch _ => pure none

/-- What stands at a place, unless it is nothing; for a file its text. -/
def textAt? (place : Place) : IO (Option (Option String)) := do
  try
    let handle ← IO.FS.Handle.mk place.text .read
    let text ← textOf? handle
    pure (some text)
  catch _ => pure none

/-- The files with what stands at a place, and the places of those that hold no data. -/
def addPlace (before : Files × List Place) (place : Place) : IO (Files × List Place) := do
  let (files, bad) := before
  match ← textAt? place with
  | none => pure (files, bad)
  | some none =>
    if (files.root.find? place).isSome then pure (files, bad)
    else pure ({ files with root := files.root.put place (.directory []) }, bad)
  | some (some text) =>
    match Json.ofFile? text with
    | some value => pure ({ files with root := files.root.put place (.file value) }, bad)
    | none => pure (files, bad ++ [place])

/-- Make the directories and write the files that changed, of those at some places. -/
def writeChanged (before after : Files) (places : List Place) : IO Unit := do
  for place in places do
    match after.root.find? place with
    | some (.file value) =>
      let old := match before.root.find? place with
        | some (.file v) => some v.pretty
        | _ => none
      if old ≠ some value.pretty then
        IO.FS.createDirAll (Place.text place.dropLast)
        IO.FS.writeFile place.text (value.pretty ++ "\n")
    | some (.directory _) => IO.FS.createDirAll place.text
    | none => pure ()

/-- Nothing is fetched here: every address fails. -/
def offline : Network := fun url => .failed s!"cannot fetch {url}: no network"

/-- What a command line that cannot be read is answered with. -/
def usage : String := "usage: check | suggest | certify | fetch-imports | criteria [options]"

end Vetting

open Vetting in
/-- Runs the command that the arguments name. -/
def main (args : List String) : IO UInt32 := do
  let directory ← IO.currentDir
  let nowhere := Files.empty (Path.ofText directory.toString).parts
  let waysOf (paths : List Path) :=
    distinctOn Place.text (paths.flatMap fun path => placesFrom (nowhere.start path) path.parts)
  let named := namedPaths args
  let (files, _) ← (waysOf named).foldlM addPlace (nowhere, [])
  let places := waysOf (named.flatMap dataFiles)
  let (files, bad) ← places.foldlM addPlace (files, [])
  match bad with
  | place :: _ =>
    IO.println s!"Error: Cannot read {place.text}: no data"
    pure 2
  | [] =>
    let outcome := Command.runLine files offline args
    for w in outcome.warnings do IO.eprintln s!"WARNING {w.message}"
    writeChanged files outcome.files places
    for p in outcome.printed do IO.println p.plain
    IO.print outcome.output
    if outcome.exit = .unusable ∧ outcome.output = "" then IO.eprintln usage
    if let some f := outcome.accident then IO.eprintln s!"Fault: {f.message}"
    pure (UInt32.ofNat outcome.exit.code)
