import Vetting.Document.Field
import Vetting.Json.Format
import Vetting.Workspace.Path
import Vetting.Workspace.Tree

/-! The files that a command works on, and the directory that it works in. A path is
walked name by name, so it leads nowhere when a directory on the way is missing, whatever
steps back follow. Main statement: what was written is found where it was written. -/

namespace Vetting

/-- All files, and the place of the working directory. -/
structure Files where
  root : Node
  home : Place

/-- Files after an attempt to write one of them, and whether it came off. The directories
made on the way stay in either case. -/
structure Attempt where
  files : Files
  done : Bool

namespace Files

def empty (home : Place) : Files := ⟨(Node.directory []).put home (.directory []), home⟩

def start (files : Files) (path : Path) : Place := if path.absolute then [] else files.home

/-- What a walk along names comes to. Only a directory can be walked through. -/
def walk (root : Node) (here : Place) : List String → Option Node
  | [] => root.find? here
  | name :: rest =>
    match root.find? here with
    | some (.directory _) => walk root (here.step name) rest
    | _ => none

def find? (files : Files) (path : Path) : Option Node :=
  walk files.root (files.start path) path.parts

/-- What the text of a path leads to. An empty text leads nowhere, and one that asks for a
directory leads to no file. -/
def named? (files : Files) (text : String) : Option Node :=
  if text.isEmpty then none
  else
    (files.find? (.ofText text)).filter fun n => n.isDirectory || !Path.asksDirectory text

/-- Walk along names and make the directories that are missing. The walk comes to the
place of a directory, or to none when a file is in the way. -/
def makeWay (root : Node) (here : Place) : List String → Node × Option Place
  | [] => (root, some here)
  | name :: rest =>
    match root.find? (here.step name) with
    | some (.directory _) => makeWay root (here.step name) rest
    | some (.file _) => (root, none)
    | none => makeWay (root.put (here.step name) (.directory [])) (here.step name) rest

/-- Write a file, in directories that are made where they are missing. -/
def write (path : Path) (value : Json) (files : Files) : Attempt :=
  match makeWay files.root (files.start path) path.parts.dropLast, path.parts.getLast? with
  | (root, some directory), some name =>
    match root.find? (directory.step name) with
    | some (.directory _) => ⟨{ files with root }, false⟩
    | _ => ⟨{ files with root := root.put (directory.step name) (.file value) }, true⟩
  | (root, _), _ => ⟨{ files with root }, false⟩

/-- Write a data file. It holds what the format makes of it. -/
def writeData [DataFormat] (path : Path) (ms : Json.Members) (files : Files) : Attempt :=
  files.write path (DataFormat.reread (Json.obj ms))

open Document

def directoryFault (path : Path) : Fault :=
  .document (.unreadable path.text s!"[Errno 21] Is a directory: {Text.quoted path.text}")

/-- The members of a data file. A file that is missing or empty has none. -/
def readData (files : Files) (path : Path) : Read Json.Members :=
  match files.find? path with
  | none => .ok []
  | some (.directory _) => .error (directoryFault path)
  | some (.file .null) => .ok []
  | some (.file (.obj ms)) => .ok ms
  | some (.file _) => fail path.text .topNotMapping

/-- The members of a dependency graph file, which has to be there. -/
def readGraph (files : Files) (path : Path) : Read Json.Members :=
  match files.find? path with
  | none => .error (.document (.noGraphFile path.text))
  | some (.directory _) => .error (directoryFault path)
  | some (.file value) =>
    if path.isJson then
      match value with
      | .obj ms => .ok ms
      | _ => fail path.text .topNotObject
    else files.readData path

theorem hasDirectory_makeWay {root : Node} {here place : Place} {names : List String}
    (h : root.hasDirectory place = true) :
    (makeWay root here names).1.hasDirectory place = true := by
  induction names generalizing root here with
  | nil => exact h
  | cons name names ih =>
    simp only [makeWay]
    split
    · exact ih h
    · exact h
    · next hnone => exact ih (Node.hasDirectory_put _ h (by simp [Node.hasDirectory, hnone]))

/-- A way that was made ends in a directory. -/
theorem hasDirectory_of_makeWay {root : Node} {here there : Place} {names : List String}
    (hhere : root.hasDirectory here = true) (hway : (makeWay root here names).2 = some there) :
    (makeWay root here names).1.hasDirectory there = true := by
  induction names generalizing root here with
  | nil =>
    simp only [makeWay, Option.some.injEq] at hway
    exact hway ▸ hhere
  | cons name names ih =>
    simp only [makeWay] at hway ⊢
    split at hway
    · next hd =>
      exact ih (by simp [Node.hasDirectory, hd, Node.isDirectory]) hway
    · simp at hway
    · next hnone =>
      exact ih (by simp [Node.hasDirectory, Node.find?_put, Node.isDirectory]) hway

/-- The way that was made can be walked, also after more directories are made. -/
theorem walk_of_makeWay {root later : Node} {here there : Place} {names : List String}
    (hhere : root.hasDirectory here = true) (hway : (makeWay root here names).2 = some there)
    (hlater : ∀ place, (makeWay root here names).1.hasDirectory place = true →
      later.hasDirectory place = true) (more : List String) :
    walk later here (names ++ more) = walk later there more := by
  induction names generalizing root here with
  | nil =>
    simp only [makeWay, Option.some.injEq] at hway
    rw [hway, List.nil_append]
  | cons name names ih =>
    obtain ⟨l, hl⟩ := Node.hasDirectory_iff.1 (hlater here (hasDirectory_makeWay hhere))
    simp only [List.cons_append, walk, hl]
    simp only [makeWay] at hway hlater
    split at hway
    · next hd =>
      simp only [hd] at hlater
      exact ih (by simp [Node.hasDirectory, hd, Node.isDirectory]) hway hlater
    · simp at hway
    · next hnone =>
      simp only [hnone] at hlater
      exact ih (by simp [Node.hasDirectory, Node.find?_put, Node.isDirectory]) hway hlater

theorem find?_write {files : Files} {path : Path} {value : Json}
    (hstart : files.root.hasDirectory (files.start path) = true)
    (hdone : (files.write path value).done = true) :
    (files.write path value).files.find? path = some (.file value) := by
  unfold write at hdone ⊢
  split at hdone
  · next root directory name hway hname =>
    have hlast : path.parts.dropLast ++ [name] = path.parts := by
      obtain ⟨init, hinit⟩ := List.getLast?_eq_some_iff.1 hname
      rw [hinit, List.dropLast_concat]
    have hmade := congrArg Prod.fst hway
    have hthere := congrArg Prod.snd hway
    simp only at hmade hthere
    split at hdone
    · simp at hdone
    · next hfree =>
      have hvacant : root.hasDirectory (directory.step name) = false := by
        refine Bool.eq_false_iff.2 fun h => ?_
        obtain ⟨l, hl⟩ := Node.hasDirectory_iff.1 h
        exact hfree l hl
      have hkept : ∀ place, root.hasDirectory place = true →
          (root.put (directory.step name) (.file value)).hasDirectory place = true :=
        fun _ hplace => Node.hasDirectory_put (.file value) hplace hvacant
      have hwalk := walk_of_makeWay hstart hthere (fun _ hplace => hkept _ (hmade ▸ hplace)) [name]
      obtain ⟨l, hl⟩ := Node.hasDirectory_iff.1 <|
        hkept _ (hmade ▸ hasDirectory_of_makeWay hstart hthere)
      change walk _ (files.start path) path.parts = _
      rw [← hlast, hwalk]
      simp only [walk, hl]
      exact Node.find?_put ..
  · simp at hdone

end Files

end Vetting
