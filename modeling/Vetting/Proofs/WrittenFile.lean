import Vetting.Workspace.Files

/-! Writing a file of a directory. Nothing else is found under the directory than before, unless it
was missing on a path with steps back: such a path leads somewhere only once it was made. -/

namespace Vetting

namespace Node

variable {node : Node} {place rest : Place}

theorem find?_append : node.find? (place ++ rest) = (node.find? place).bind fun n => n.find? rest := by
  induction place generalizing node with
  | nil => rfl
  | cons name place ih =>
    rw [List.cons_append, find?, find?]
    cases node.entries.lookup name with
    | none => rfl
    | some n => exact ih

theorem hasDirectory_nil (h : node.hasDirectory place = true) : node.hasDirectory [] = true := by
  cases node with
  | directory => rfl
  | file =>
    cases place with
    | nil => exact h
    | cons => cases h

theorem find?_of_not_hasDirectory (h : node.hasDirectory place = false) (hrest : rest ≠ []) :
    node.find? (place ++ rest) = none := by
  rw [find?_append]
  cases hplace : node.find? place with
  | none => rfl
  | some n =>
    rw [hasDirectory, hplace] at h
    cases n with
    | directory => cases h
    | file =>
      cases rest with
      | nil => exact absurd rfl hrest
      | cons => rfl

end Node

namespace Files

variable {root : Node} {here there more : Place} {names : List String} {files : Files} {store : Path}
  {name other : String} {value : Json}

theorem step_eq (h : name ≠ "..") : here.step name = here ++ [name] := if_neg h

/-- A path without steps back leads to the place of its names. -/
theorem walk_eq_find? (h : ".." ∉ names) : walk root here names = root.find? (here ++ names) := by
  induction names generalizing here with
  | nil => rw [walk, List.append_nil]
  | cons name names ih =>
    have hname := List.ne_of_not_mem_cons h
    have hnames := List.not_mem_of_not_mem_cons h
    rw [walk]
    split
    · rw [ih hnames, step_eq (Ne.symm hname), List.append_assoc]
      rfl
    · next hnone =>
      refine (Node.find?_of_not_hasDirectory (Bool.eq_false_iff.2 fun hdirectory => ?_)
        (List.cons_ne_nil _ _)).symm
      obtain ⟨l, hl⟩ := Node.hasDirectory_iff.1 hdirectory
      exact hnone l hl

theorem there_of_makeWay (h : ".." ∉ names) (hway : (makeWay root here names).2 = some there) :
    there = here ++ names := by
  induction names generalizing root here with
  | nil => rw [List.append_nil, ← Option.some.inj hway]
  | cons name names ih =>
    have hname := List.ne_of_not_mem_cons h
    have hnames := List.not_mem_of_not_mem_cons h
    have hstep : (here.step name) ++ names = here ++ name :: names := by
      rw [step_eq (Ne.symm hname), List.append_assoc]
      rfl
    rw [makeWay] at hway
    rw [← hstep]
    split at hway
    · exact ih hnames hway
    · cases hway
    · exact ih hnames hway

/-- Below the end of a way without steps back nothing comes to be when the way is made. -/
theorem find?_below_makeWay (h : ".." ∉ names) (hmore : more ≠ []) :
    (makeWay root here names).1.find? (here ++ names ++ more) =
      root.find? (here ++ names ++ more) := by
  induction names generalizing root here with
  | nil => rfl
  | cons name names ih =>
    have hname := List.ne_of_not_mem_cons h
    have hnames := List.not_mem_of_not_mem_cons h
    have hstep : here ++ name :: names ++ more = here.step name ++ names ++ more := by
      rw [step_eq (Ne.symm hname)]
      simp
    rw [makeWay, hstep]
    split
    · exact ih hnames
    · rfl
    · next hnone =>
      have hmissing : root.find? (here.step name ++ (names ++ more)) = none := by
        rw [Node.find?_append, hnone]
        rfl
      rw [ih hnames, List.append_assoc, Node.find?_put_append, hmissing]
      exact Node.find?_directory_nil fun hnil => hmore (List.append_eq_nil_iff.1 hnil).2

theorem hasDirectory_of_walk {l : List (String × Node)}
    (h : walk root here names = some (.directory l)) : root.hasDirectory here = true := by
  cases names with
  | nil => exact Node.hasDirectory_iff.2 ⟨l, h⟩
  | cons name names =>
    rw [walk] at h
    split at h
    · next hhere => exact Node.hasDirectory_iff.2 ⟨_, hhere⟩
    · cases h

/-- To make a way that is there changes nothing. -/
theorem makeWay_of_walk {l : List (String × Node)}
    (h : walk root here names = some (.directory l)) : (makeWay root here names).1 = root := by
  induction names generalizing here with
  | nil => rfl
  | cons name names ih =>
    rw [walk] at h
    split at h
    · obtain ⟨entries, hentries⟩ := Node.hasDirectory_iff.1 (hasDirectory_of_walk h)
      rw [makeWay, hentries]
      exact ih h
    · cases h

/-- A file that could be written was put where the way to its directory ends. -/
theorem exists_directory_of_write (hdone : (files.write (store.child name) value).done = true) :
    ∃ directory, (makeWay files.root (files.start store) store.parts).2 = some directory ∧
      (makeWay files.root (files.start store) store.parts).1.hasDirectory (directory.step name) =
        false ∧
      (files.write (store.child name) value).files =
        ⟨(makeWay files.root (files.start store) store.parts).1.put (directory.step name)
          (.file value), files.home⟩ := by
  have hstart : files.start (store.child name) = files.start store := rfl
  rw [write, Path.child, List.dropLast_concat, List.getLast?_concat] at hdone ⊢
  rw [← Path.child, hstart] at hdone ⊢
  split at hdone
  · next root directory last hway hlast =>
    obtain rfl : name = last := Option.some.inj hlast
    rw [hway]
    split at hdone
    · cases hdone
    · next hfree =>
      refine ⟨directory, rfl, Bool.eq_false_iff.2 fun hdirectory => ?_, ?_⟩
      · obtain ⟨l, hl⟩ := Node.hasDirectory_iff.1 hdirectory
        exact hfree l hl
      · dsimp only
  · cases hdone

/-- Whether a path leads to a directory, or takes no steps back. -/
def LeadsOn (files : Files) (store : Path) : Prop :=
  (∃ l, files.find? store = some (.directory l)) ∨ ".." ∉ store.parts

theorem hasDirectory_start (hhome : files.root.hasDirectory files.home = true) :
    files.root.hasDirectory (files.start store) = true := by
  unfold start
  split
  · exact Node.hasDirectory_nil hhome
  · exact hhome

/-- One step on from a directory. -/
theorem walk_step (h : root.hasDirectory there = true) (hname : name ≠ "..") :
    walk root there [name] = root.find? (there ++ [name]) := by
  obtain ⟨l, hl⟩ := Node.hasDirectory_iff.1 h
  simp only [walk, hl, step_eq hname]

/-- Beside a file that was written stands what stood at the end of the way that was made to it. -/
theorem exists_way_of_write (hhome : files.root.hasDirectory files.home = true)
    (hname : name ≠ "..") (hother : other ≠ "..") (hne : other ≠ name)
    (hdone : (files.write (store.child name) value).done = true) :
    ∃ directory, (makeWay files.root (files.start store) store.parts).2 = some directory ∧
      (files.write (store.child name) value).files.find? (store.child other) =
        (makeWay files.root (files.start store) store.parts).1.find? (directory ++ [other]) := by
  have hstart : files.root.hasDirectory (files.start store) = true := hasDirectory_start hhome
  obtain ⟨directory, hway, hvacant, hfiles⟩ := exists_directory_of_write hdone
  rw [step_eq hname] at hvacant hfiles
  have hkept : ∀ place,
      (makeWay files.root (files.start store) store.parts).1.hasDirectory place = true →
        ((makeWay files.root (files.start store) store.parts).1.put (directory ++ [name])
          (.file value)).hasDirectory place = true :=
    fun _ hplace => Node.hasDirectory_put (.file value) hplace hvacant
  have hapart : ∀ {m n : String}, m ≠ n → ¬directory ++ [m] <+: directory ++ [n] := by
    intro m n hmn hprefix
    rw [List.prefix_append_right_inj] at hprefix
    exact hmn (List.cons_prefix_cons.1 hprefix).1
  refine ⟨directory, hway, ?_⟩
  rw [hfiles]
  show walk _ (files.start store) (store.parts ++ [other]) = _
  rw [walk_of_makeWay hstart hway hkept, walk_step (hkept _ (hasDirectory_of_makeWay hstart hway))
    hother, Node.find?_put_of_not_prefix _ _ (hapart hne.symm) (hapart hne)]

/-- Writing a file of a directory changes no other file that is found there. -/
theorem find?_child_write (hhome : files.root.hasDirectory files.home = true)
    (hstore : files.LeadsOn store) (hname : name ≠ "..") (hother : other ≠ "..")
    (hne : other ≠ name) (hdone : (files.write (store.child name) value).done = true) :
    (files.write (store.child name) value).files.find? (store.child other) =
      files.find? (store.child other) := by
  have hstart : files.root.hasDirectory (files.start store) = true := hasDirectory_start hhome
  obtain ⟨directory, hway, hafter⟩ := exists_way_of_write hhome hname hother hne hdone
  rw [hafter]
  show _ = walk files.root (files.start store) (store.parts ++ [other])
  rcases hstore with ⟨l, hl⟩ | hplain
  · have hsame : (makeWay files.root (files.start store) store.parts).1 = files.root :=
      makeWay_of_walk hl
    have hdirectory := hasDirectory_of_makeWay hstart hway
    rw [hsame] at hdirectory ⊢
    rw [walk_of_makeWay hstart hway (fun _ hplace => hsame ▸ hplace),
      walk_step hdirectory hother]
  · have hplain' : ".." ∉ store.parts ++ [other] := by
      rw [List.mem_append, List.mem_singleton]
      rintro (h | h)
      · exact hplain h
      · exact hother h.symm
    rw [walk_eq_find? hplain', there_of_makeWay hplain hway, ← List.append_assoc,
      find?_below_makeWay hplain (List.cons_ne_nil _ _)]

end Files

end Vetting
