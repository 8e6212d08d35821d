import Vetting.Json.Value

/-! Trees of directories and files. A place in a tree is the list of names that lead to
it from the root; to put something there changes no place aside of it. -/

namespace Vetting

/-- A file with the value that it holds, or a directory of named nodes. -/
inductive Node where
  | file (value : Json)
  | directory (entries : List (String × Node))

abbrev Place := List String

/-- The place one step on: a name in a directory, or the directory around it. The root has
none around it. -/
def Place.step (place : Place) (name : String) : Place :=
  if name = ".." then place.dropLast else place ++ [name]

namespace Node

def entries : Node → List (String × Node)
  | directory entries => entries
  | file _ => []

@[simp] theorem entries_directory (l : List (String × Node)) : (directory l).entries = l := rfl

def isDirectory : Node → Bool
  | directory _ => true
  | file _ => false

def find? (node : Node) : Place → Option Node
  | [] => some node
  | name :: rest => (node.entries.lookup name).bind fun n => n.find? rest

def hasDirectory (node : Node) (place : Place) : Bool := (node.find? place).any isDirectory

theorem hasDirectory_iff {node : Node} {place : Place} :
    node.hasDirectory place = true ↔ ∃ l, node.find? place = some (.directory l) := by
  unfold hasDirectory
  cases node.find? place with
  | none => simp
  | some n => cases n <;> simp [isDirectory]

/-- Entries with one replaced, or with one more. -/
def putEntry (name : String) (node : Node) : List (String × Node) → List (String × Node)
  | [] => [(name, node)]
  | (m, n) :: rest => if m = name then (m, node) :: rest else (m, n) :: putEntry name node rest

/-- The tree with a node at a place, in directories that are made where they are missing. -/
def put (node : Node) (place : Place) (new : Node) : Node :=
  match place with
  | [] => new
  | name :: rest =>
    let inner := (node.entries.lookup name).getD (.directory [])
    .directory (putEntry name (inner.put rest new) node.entries)

theorem lookup_cons_entry (name other : String) (node : Node) (l : List (String × Node)) :
    List.lookup other ((name, node) :: l) = if other = name then some node else l.lookup other := by
  rw [List.lookup_cons]
  by_cases h : other = name
  · simp [h]
  · rw [beq_eq_false_iff_ne.2 h, if_neg h]

theorem lookup_putEntry (name other : String) (node : Node) (l : List (String × Node)) :
    (putEntry name node l).lookup other = if other = name then some node else l.lookup other := by
  induction l with
  | nil => exact lookup_cons_entry ..
  | cons e l ih =>
    obtain ⟨m, n⟩ := e
    rw [putEntry]
    split
    · next hm => subst hm; simp only [lookup_cons_entry]; split <;> rfl
    · next hm =>
      simp only [lookup_cons_entry, ih]
      by_cases h : other = m
      · simp [h, hm]
      · simp [h]

/-- What is put at a place, and nodes of it, are found there. -/
theorem find?_put_append (node new : Node) (place rest : Place) :
    (node.put place new).find? (place ++ rest) = new.find? rest := by
  induction place generalizing node with
  | nil => rfl
  | cons name place ih => simp [put, find?, lookup_putEntry, ih]

theorem find?_put (node new : Node) (place : Place) :
    (node.put place new).find? place = some new := by
  simpa [find?] using find?_put_append node new place []

theorem find?_directory_nil {place : Place} (h : place ≠ []) :
    (directory []).find? place = none := by
  cases place with
  | nil => exact absurd rfl h
  | cons => rfl

/-- Places of which neither leads to the other do not disturb each other. -/
theorem find?_put_of_not_prefix (node new : Node) {place other : Place}
    (hplace : ¬ place <+: other) (hother : ¬ other <+: place) :
    (node.put place new).find? other = node.find? other := by
  induction place generalizing node other with
  | nil => exact absurd List.nil_prefix hplace
  | cons name place ih =>
    cases other with
    | nil => exact absurd List.nil_prefix hother
    | cons o other =>
      simp only [put, find?, entries_directory, lookup_putEntry]
      by_cases h : o = name
      · subst h
        simp only [List.cons_prefix_cons, true_and] at hplace hother
        rw [if_pos rfl, Option.bind_some, ih _ hplace hother]
        cases node.entries.lookup o with
        | some n => rfl
        | none =>
          have hne : other ≠ [] := by rintro rfl; exact hother List.nil_prefix
          exact find?_directory_nil hne
      · rw [if_neg h]

/-- No directory is lost by what is put where none is. -/
theorem hasDirectory_put {node : Node} (new : Node) {place other : Place}
    (hother : node.hasDirectory other = true) (hplace : node.hasDirectory place = false) :
    (node.put place new).hasDirectory other = true := by
  induction place generalizing node other with
  | nil =>
    cases node with
    | directory => simp [hasDirectory, find?, isDirectory] at hplace
    | file => cases other <;> simp [hasDirectory, find?, isDirectory, entries] at hother
  | cons name place ih =>
    cases other with
    | nil => rfl
    | cons o other =>
      simp only [hasDirectory, put, find?, entries_directory, lookup_putEntry] at *
      split
      · next h =>
        subst h
        cases hl : node.entries.lookup o with
        | none => simp [hl] at hother
        | some n =>
          simp only [hl, Option.bind_some] at hother hplace
          exact ih hother hplace
      · exact hother

end Node

end Vetting
