import Vetting.Document.Entry
import Vetting.Proofs.SortedEntries
import Vetting.Proofs.VersionText

/-! Reviews written as entries and read again. An entry gives back the review that it was written
for, unless the revision that a change starts at holds the arrow that stands between versions. -/

namespace Vetting

/-- What stands between the versions of a change. -/
def arrow : List Char := ['-', '>']

/-- Whether the text of a record holds an arrow before the one that stands between its versions. -/
def AuditRecord.CutsEarly : AuditRecord → Prop
  | .delta a => ∃ r, a.start.revision = some r ∧ arrow <:+: r.toList
  | _ => False

namespace Version

open Text

theorem arrow_infix_text_iff {v : Version} (hv : v.Readable) :
    arrow <:+: v.text.toList ↔ ∃ r, v.revision = some r ∧ arrow <:+: r.toList := by
  have hpublished : '>' ∉ v.published.text.toList := fun hmem =>
    (of_isPublishedChar (isPublishedChar_of_mem_text hv.published rfl hmem)).2.2 rfl
  rw [toList_text_eq hv]
  cases hrevision : v.revision with
  | none =>
    rw [revisionText, List.append_nil]
    constructor
    · intro h
      exact absurd (h.subset (by decide)) hpublished
    · rintro ⟨r, hr, _⟩
      cases hr
  | some r =>
    have hfront : '>' ∉ v.published.text.toList ++ '@' :: revisionMark := by
      rw [List.mem_append]
      rintro (hmem | hmem)
      · exact hpublished hmem
      · exact absurd hmem (by decide)
    rw [revisionText, ← List.append_assoc]
    constructor
    · intro h
      refine ⟨r, rfl, ?_⟩
      -- Only what follows the mark of a revision has room for an arrow.
      rcases List.infix_append_iff.1 h with h | h | ⟨l, m, hsplit, hl, hm⟩
      · exact absurd (h.subset (by decide)) hfront
      · exact h
      · cases l with
        | nil => exact hsplit ▸ hm.isInfix
        | cons c l =>
          obtain ⟨rfl, hrest⟩ := List.cons.inj hsplit
          cases l with
          | nil =>
            obtain ⟨front, hlast⟩ := hl
            have hmark := congrArg List.getLast? hlast
            rw [List.getLast?_append_of_ne_nil _ (List.cons_ne_nil _ _),
              List.getLast?_append_of_ne_nil _ (List.cons_ne_nil _ _)] at hmark
            exact absurd hmark (by decide)
          | cons d l =>
            obtain ⟨rfl, _⟩ := List.cons.inj hrest
            exact absurd (hl.subset (by simp)) hfront
    · rintro ⟨_, hr, h⟩
      cases hr
      exact h.trans (List.suffix_append _ _).isInfix

end Version

namespace Document

variable {a : DeltaAudit} {r : AuditRecord} {before after name other package place : String}
  {v : Json} {kind : String × Json}

theorem not_arrow_infix_concat {cs : List Char} {c : Char} (h : ¬arrow <:+: cs) (hc : c ≠ '>') :
    ¬arrow <:+: cs ++ [c] := by
  rw [List.infix_concat_iff, List.suffix_concat_iff]
  rintro ((hnil | ⟨l, hl, _⟩) | hin)
  · cases hnil
  · have hlast := congrArg List.getLast? hl
    rw [List.getLast?_concat] at hlast
    exact hc (Option.some.inj hlast).symm
  · exact h hin

theorem toList_deltaText : (s!"{a.start} -> {a.target}").toList =
    (a.start.text.toList ++ [' ']) ++ arrow ++ ' ' :: a.target.text.toList := by
  have harrow : (toString " -> ").toList = [' ', '-', '>', ' '] := rfl
  have hversion : ∀ v : Version, toString v = v.text := fun _ => rfl
  simp [hversion, harrow, arrow]

/-- The text of a change is cut between its versions, if the first one holds no arrow. -/
theorem arrow?_deltaText (h : ¬arrow <:+: a.start.text.toList) :
    arrow? s!"{a.start} -> {a.target}" =
      some (String.ofList (a.start.text.toList ++ [' ']),
        String.ofList (' ' :: a.target.text.toList)) := by
  have hspace : ¬arrow <:+: a.start.text.toList ++ [' '] := not_arrow_infix_concat h (by decide)
  have hfront : ¬arrow <:+: (a.start.text.toList ++ [' ']) ++ arrow.dropLast :=
    not_arrow_infix_concat hspace (by decide)
  rw [arrow?, toList_deltaText]
  have hcut := Text.cut?_append hfront (' ' :: a.target.text.toList)
  rw [arrow] at hcut ⊢
  rw [hcut]
  rfl

theorem lookup_given : (given name v).lookup other =
    if other = name ∧ v.isGiven = true then some v else none := by
  rw [given]
  split
  · next hv =>
    rw [NameMap.lookup_cons_eq, List.lookup_nil]
    simp only [hv, and_true]
  · next hv =>
    rw [List.lookup_nil, if_neg fun h => hv h.2]

theorem lookup_whoField {who : List String} : (whoField who).lookup other =
    if other = "who" ∧ who ≠ [] then some (whoValue who) else none := by
  rw [whoField]
  cases who with
  | nil => simp
  | cons one more =>
    rw [List.isEmpty_cons, if_neg Bool.false_ne_true, NameMap.lookup_cons_eq, List.lookup_nil]
    simp only [ne_eq, reduceCtorEq, not_false_eq_true, and_true]

theorem who_whoValue (who : List String) : Document.who (whoValue who) = .ok who := by
  cases who with
  | nil => rfl
  | cons one more =>
    cases more with
    | nil => rfl
    | cons next more =>
      have hmap : ((one :: next :: more).map Json.str).map Json.asText = one :: next :: more := by
        rw [List.map_map]
        exact List.map_id'' (fun _ => rfl) _
      exact congrArg Except.ok hmap

theorem texts?_map_str (l : List String) : texts? (l.map .str) = some l := by
  induction l with
  | nil => rfl
  | cons s l ih =>
    rw [List.map_cons, texts?, ih]
    rfl

theorem names_nameList (s : NameSet) : names (nameList s) place = .ok s := by
  have hlist : NameSet.ofList s.toList = s := NameSet.ext fun x => NameSet.mem_ofList
  rw [nameList, names, texts?_map_str]
  exact congrArg Except.ok hlist

theorem dependencyCriteria_entries (d : DependencyCriteria) :
    dependencyCriteria (.obj (d.entries.map fun e => (e.1, nameList e.2))) place = .ok d := by
  have hread : (d.entries.map fun e => (e.1, nameList e.2)).mapM (fun m : String × Json => do
      let set ← names m.2 s!"{place}.{m.1}"
      pure (m.1, set)) = .ok d.entries := by
    rw [mapM_eq_ok_iff_forall₂, List.forall₂_map_left_iff, List.forall₂_same]
    intro e _
    rw [names_nameList]
    rfl
  rw [dependencyCriteria]
  show (_ >>= fun entries => Except.ok (NameMap.ofList entries)) = _
  rw [hread, ok_bind, NameMap.ofList_entries]

section Written

variable {criteria : NameSet} {who : List String} {notes : Json} {d : DependencyCriteria}

/-- What is found in a written entry under any name but that of its criteria. -/
theorem lookup_written (hother : other ≠ "criteria") :
    ([("criteria", nameList criteria), kind] ++ whoField who ++ given "notes" notes ++
        dependencyField d).lookup other =
      if other = kind.1 then some kind.2 else
        ((if other = "who" ∧ who ≠ [] then some (whoValue who) else none).or
          (if other = "notes" ∧ notes.isGiven = true then some notes else none)).or
            ((dependencyField d).lookup other) := by
  obtain ⟨name, v⟩ := kind
  rw [List.append_assoc, List.append_assoc, List.cons_append, NameMap.lookup_cons_eq, if_neg hother,
    List.cons_append, NameMap.lookup_cons_eq, List.nil_append, ← List.append_assoc,
    List.lookup_append, List.lookup_append, lookup_whoField, lookup_given]

theorem lookup_dependencyField_of_ne (hother : other ≠ "dependency-criteria") :
    (dependencyField d).lookup other = none := by
  rw [dependencyField, lookup_given, if_neg fun h => hother h.1]

/-- Under a name that no part of a review has stands only what tells what the entry is. -/
theorem lookup_kind (hother : other ∉ ["criteria", "who", "notes", "dependency-criteria"]) :
    ([("criteria", nameList criteria), kind] ++ whoField who ++ given "notes" notes ++
        dependencyField d).lookup other = if other = kind.1 then some kind.2 else none := by
  simp only [List.mem_cons, List.not_mem_nil, or_false, not_or] at hother
  obtain ⟨hcriteria, hwho, hnotes, hdependencies⟩ := hother
  rw [lookup_written hcriteria, if_neg (c := other = "who" ∧ _) fun h => hwho h.1,
    if_neg (c := other = "notes" ∧ _) fun h => hnotes h.1,
    lookup_dependencyField_of_ne hdependencies]
  rfl

theorem dependencyCriteria_dependencyField :
    dependencyCriteria (field (dependencyField d) "dependency-criteria") place = .ok d := by
  obtain ⟨entries, hascending⟩ := d
  cases entries with
  | nil => rfl
  | cons e es => exact dependencyCriteria_entries ⟨e :: es, hascending⟩

/-- What an entry holds for its reader: the parts of a review, and one field that tells what it
is. -/
structure Holds (entry : Json.Members) (kind : String × Json) (criteria : NameSet)
    (who : List String) (notes : Json) (d : DependencyCriteria) : Prop where
  criteria_eq : field entry "criteria" = nameList criteria
  who_eq : Document.who (field entry "who") = .ok who
  notes_eq : field entry "notes" = notes
  origins_eq : parts ((field entry "aggregated-from").orElse (.arr [])) = .ok []
  dependencies_eq : ∀ place, dependencyCriteria (field entry "dependency-criteria") place = .ok d
  kinds_eq : kindFields entry = [kind]

theorem holds_written (hkind : kind.1 = "version" ∨ kind.1 = "delta")
    (hnotes : notes = .null ∨ notes.isGiven = true) :
    Holds ([("criteria", nameList criteria), kind] ++ whoField who ++ given "notes" notes ++
      dependencyField d) kind criteria who notes d := by
  have hne : ∀ other, other ≠ "version" → other ≠ "delta" → other ≠ kind.1 := by
    rintro other hversion hdelta rfl
    exact hkind.elim hversion hdelta
  refine ⟨rfl, ?_, ?_, ?_, ?_, ?_⟩
  · rw [field, lookup_written (by decide), if_neg (hne _ (by decide) (by decide)),
      lookup_dependencyField_of_ne (by decide)]
    cases who with
    | nil => rfl
    | cons one more => exact who_whoValue (one :: more)
  · rw [field, lookup_written (by decide), if_neg (hne _ (by decide) (by decide)),
      lookup_dependencyField_of_ne (by decide)]
    rcases hnotes with rfl | hgiven
    · rfl
    · simp [hgiven]
  · rw [field, lookup_kind (by decide), if_neg (hne _ (by decide) (by decide))]
    rfl
  · intro place
    rw [field, lookup_written (by decide), if_neg (hne _ (by decide) (by decide))]
    exact dependencyCriteria_dependencyField
  · have hkinds : ∀ name ∈ ["version", "delta", "violation"],
        (([("criteria", nameList criteria), kind] ++ whoField who ++ given "notes" notes ++
          dependencyField d).lookup name).map (fun v => (name, v)) =
            if name = kind.1 then some kind else none := by
      have hapart : ∀ name ∈ ["version", "delta", "violation"],
          name ∉ ["criteria", "who", "notes", "dependency-criteria"] := by decide
      intro name hname
      rw [lookup_kind (hapart name hname)]
      split
      · next h => rw [h, Option.map_some]
      · rfl
    rw [kindFields, List.filterMap_congr hkinds]
    obtain ⟨name, v⟩ := kind
    rcases hkind with rfl | rfl
    · simp
    · simp

end Written

/-- The entry of a full review is read up to its version. -/
theorem auditEntry_fullEntry {a : FullAudit} (hnotes : a.notes = .null ∨ a.notes.isGiven = true)
    (hown : a.aggregatedFrom = []) : auditEntry a.package (fullEntry a) place =
      version (.str a.version.text) place >>= fun version => .ok (.full { a with version }) := by
  have h : Holds (fullEntry a) ("version", .str a.version.text) a.criteria a.who a.notes
      a.dependencyCriteria := holds_written (.inl rfl) hnotes
  rw [auditEntry, h.criteria_eq, names_nameList, ok_bind, h.who_eq, ok_bind, h.origins_eq, ok_bind,
    h.dependencies_eq, ok_bind, h.notes_eq, h.kinds_eq, ← hown]
  rfl

/-- The entry of a change is read up to the two versions that its text is cut into. -/
theorem auditEntry_deltaEntry (hnotes : a.notes = .null ∨ a.notes.isGiven = true)
    (hown : a.aggregatedFrom = [])
    (hcut : arrow? s!"{a.start} -> {a.target}" = some (before, after)) :
    auditEntry a.package (deltaEntry a) place =
      version (.str before) place >>= fun start => version (.str after) place >>= fun target =>
        .ok (.delta { a with start, target }) := by
  have h : Holds (deltaEntry a) ("delta", .str s!"{a.start} -> {a.target}") a.criteria a.who a.notes
      a.dependencyCriteria := holds_written (.inr rfl) hnotes
  rw [auditEntry, h.criteria_eq, names_nameList, ok_bind, h.who_eq, ok_bind, h.origins_eq, ok_bind,
    h.dependencies_eq, ok_bind, h.notes_eq, h.kinds_eq, ← hown]
  simp only [Json.asText, hcut]
  rfl

theorem version_of_blanks {v : Version} {text : String} {front back : List Char} (hv : v.Readable)
    (htext : text.toList = front ++ v.text.toList ++ back)
    (hfront : ∀ c ∈ front, Text.isBlank c = true) (hback : ∀ c ∈ back, Text.isBlank c = true) :
    version (.str text) place = .ok v := by
  rw [version, Json.asText, Version.parse_of_blanks hv htext hfront hback]

/-- A review that is written as it is read: its versions come from texts, its notes, where there are
any, are a text that says something, and no import stands behind it. -/
structure Written (package : String) (r : AuditRecord) : Prop where
  package_eq : r.package = package
  review : (∃ a, r = .full a) ∨ ∃ a, r = .delta a
  parsed : ∀ v ∈ r.versions, ∃ text, Version.parse text = .ok v
  noted : r.notes = .null ∨ ∃ text, text ≠ "" ∧ r.notes = .str text
  own : r.aggregatedFrom = []

/-- What is read of a change whose text is cut too early: a fault in one of the two texts, or a
change that starts at another version. -/
inductive Misread (place : String) : AuditRecord → Read AuditRecord → Prop
  | fault (a : DeltaAudit) (f : TextFault) : Misread place (.delta a) (fail place (.text f))
  | elsewhere {a : DeltaAudit} {start target : Version} (h : start.toRelease ≠ a.start.toRelease) :
      Misread place (.delta a) (.ok (.delta { a with start, target }))

theorem version_eq_fail_or (text place : String) :
    (∃ f, version (.str text) place = fail place (.text f)) ∨
      ∃ v, Version.parse text = .ok v ∧ version (.str text) place = .ok v := by
  rw [version, Json.asText]
  cases hparse : Version.parse text with
  | error f => exact .inl ⟨f, rfl⟩
  | ok v => exact .inr ⟨v, rfl, rfl⟩

theorem misread_deltaEntry (hnotes : a.notes = .null ∨ a.notes.isGiven = true)
    (hown : a.aggregatedFrom = []) {revision : String} (hr : a.start.revision = some revision)
    (harrow : arrow <:+: revision.toList) :
    Misread place (.delta a) (auditEntry a.package (deltaEntry a) place) := by
  have hin : arrow <:+: (s!"{a.start} -> {a.target}").toList := ⟨_, _, toList_deltaText.symm⟩
  obtain ⟨⟨front, back⟩, hcut⟩ : ∃ parts,
      Text.cut? arrow (s!"{a.start} -> {a.target}").toList = some parts :=
    Option.ne_none_iff_exists'.1 fun hnone => Text.cut?_eq_none_iff.1 hnone hin
  have hread : arrow? s!"{a.start} -> {a.target}" =
      some (String.ofList front, String.ofList back) := by
    rw [arrow?]
    exact congrArg (Option.map _) hcut
  rw [auditEntry_deltaEntry hnotes hown hread]
  rcases version_eq_fail_or (String.ofList front) place with
    ⟨f, hf⟩ | ⟨start, hparse, hstart'⟩
  · rw [hf]
    exact .fault a f
  rcases version_eq_fail_or (String.ofList back) place with
    ⟨f, hf⟩ | ⟨target, _, htarget⟩
  · rw [hstart', ok_bind, hf]
    exact .fault a f
  rw [hstart', ok_bind, htarget, ok_bind]
  -- What stands before the first arrow holds none, and so no version read from it.
  refine .elsewhere fun hsame => ?_
  have hrevision : start.revision = some revision := (congrArg Release.revision hsame).trans hr
  have hpart := Version.revision_infix_of_parse hparse hrevision
  rw [String.toList_ofList] at hpart
  exact Text.not_infix_of_cut? (List.cons_ne_nil _ _) hcut (harrow.trans hpart)

/-- A written review reads back, unless its text is cut too early; then it does not. -/
theorem written_reads_back (h : Written package r) : ∃ entry, entryOf r = .ok entry ∧ ∀ place,
    (¬r.CutsEarly → auditEntry package entry place = .ok r) ∧
      (r.CutsEarly → Misread place r (auditEntry package entry place)) := by
  obtain ⟨rfl, hreview, hparsed, hnoted, hown⟩ := h
  have hnotes : r.notes = .null ∨ r.notes.isGiven = true := by
    rcases hnoted with hnull | ⟨text, hne, htext⟩
    · exact .inl hnull
    · rw [htext]
      exact .inr (decide_eq_true hne)
  have hreadable : ∀ v ∈ r.versions, v.Readable := by
    intro v hv
    obtain ⟨text, htext⟩ := hparsed v hv
    exact Version.readable_of_parse htext
  have hblank : ∀ c ∈ [' '], Text.isBlank c = true := List.forall_mem_singleton.2 (by decide)
  have hnothing : ∀ c ∈ ([] : List Char), Text.isBlank c = true :=
    fun _ hc => absurd hc List.not_mem_nil
  rcases hreview with ⟨a, rfl⟩ | ⟨a, rfl⟩
  · refine ⟨fullEntry a, rfl, fun place => ⟨fun _ => ?_, fun hcuts => hcuts.elim⟩⟩
    have hversion : version (.str a.version.text) place = .ok a.version :=
      version_of_blanks (hreadable _ List.mem_cons_self) (by simp) hnothing hnothing
    exact (auditEntry_fullEntry hnotes hown).trans (by rw [hversion, ok_bind])
  · have hstart : a.start.Readable := hreadable _ List.mem_cons_self
    have htarget : a.target.Readable := hreadable _ (List.mem_cons_of_mem _ List.mem_cons_self)
    refine ⟨deltaEntry a, rfl, fun place => ⟨fun hcuts => ?_, ?_⟩⟩
    · have hcut := arrow?_deltaText (a := a) (mt (Version.arrow_infix_text_iff hstart).1 hcuts)
      have hbefore : version (.str (String.ofList (a.start.text.toList ++ [' ']))) place =
          .ok a.start := version_of_blanks hstart (by simp) hnothing hblank
      have hafter : version (.str (String.ofList (' ' :: a.target.text.toList))) place =
          .ok a.target := version_of_blanks htarget (by simp) hblank hnothing
      exact (auditEntry_deltaEntry hnotes hown hcut).trans
        (by rw [hbefore, ok_bind, hafter, ok_bind])
    · rintro ⟨revision, hrevision, harrow⟩
      exact misread_deltaEntry hnotes hown hrevision harrow

/-- A change from a revision of a pre-release, with dashes in both, to a version with a build. -/
def branchReview : DeltaAudit where
  package := "base"
  start := { major := 1, minor := 0, patch := 0, pre := ["rc-1"], revision := some "a-b>c" }
  target := { major := 1, minor := 0, patch := 1, build := "5" }
  criteria := NameSet.ofList [safeToRun, safeToDeploy]
  who := ["ada", "ben"]
  notes := .str "checked"
  dependencyCriteria := NameMap.ofList [("core", .single safeToRun)]

/-- A change from a revision, reviewed to be run. -/
def revisionReview (revision : String) (target : Version) : DeltaAudit where
  package := "base"
  start := { major := 1, minor := 0, patch := 0, revision := some revision }
  target := target
  criteria := .single safeToRun

theorem written_revisionReview {revision : String} {target : Version} (before after : String)
    (hstart : Version.parse before = .ok (revisionReview revision target).start)
    (htarget : Version.parse after = .ok target) :
    Written "base" (.delta (revisionReview revision target)) :=
  ⟨rfl, .inr ⟨_, rfl⟩, List.forall_mem_cons.2 ⟨⟨before, hstart⟩,
    List.forall_mem_singleton.2 ⟨after, htarget⟩⟩, .inl rfl, rfl⟩

theorem written_reads_back_branchReview :
    let branch := AuditRecord.delta branchReview
    let arrowed := AuditRecord.delta (revisionReview "a->b" { major := 1, minor := 0, patch := 1 })
    (Written "base" branch ∧ ¬branch.CutsEarly ∧
      ∃ entry, entryOf branch = .ok entry ∧ auditEntry "base" entry auditsFile = .ok branch) ∧
    Written "base" arrowed ∧ arrowed.CutsEarly ∧
      ∃ entry, entryOf arrowed = .ok entry ∧
        Misread auditsFile arrowed (auditEntry "base" entry auditsFile) := by
  intro branch arrowed
  have hbranch : Written "base" branch := by
    refine ⟨rfl, .inr ⟨_, rfl⟩, ?_, .inr ⟨"checked", by decide, rfl⟩, rfl⟩
    exact List.forall_mem_cons.2 ⟨⟨"1.0.0-rc-1 @ git:a-b>c", rfl⟩,
      List.forall_mem_singleton.2 ⟨"1.0.1+5", rfl⟩⟩
  have harrowed : Written "base" arrowed := written_revisionReview "1.0.0@git:a->b" "1.0.1" rfl rfl
  have hkeeps : ¬branch.CutsEarly := by
    rintro ⟨r, hr, hin⟩
    cases hr
    exact absurd hin (by decide)
  have hcuts : arrowed.CutsEarly := ⟨"a->b", rfl, by decide⟩
  obtain ⟨entry, hentry, hread⟩ := written_reads_back hbranch
  obtain ⟨other, hother, hmisread⟩ := written_reads_back harrowed
  exact ⟨⟨hbranch, hkeeps, entry, hentry, (hread auditsFile).1 hkeeps⟩,
    harrowed, hcuts, other, hother, (hmisread auditsFile).2 hcuts⟩

/-- A review need not read back. Where the revision that a change starts at holds an arrow, what
stands behind it may be no version, or it may be one, and then another change is read. -/
theorem exists_review_that_does_not_read_back :
    (¬∀ (package place : String) (r : AuditRecord), Written package r →
        ∃ entry s, entryOf r = .ok entry ∧ auditEntry package entry place = .ok s) ∧
      ¬∀ (package place : String) (r s : AuditRecord) (entry : Json.Members), Written package r →
        entryOf r = .ok entry → auditEntry package entry place = .ok s → s = r := by
  constructor
  · intro hclaim
    let a := revisionReview "a->b" { major := 1, minor := 0, patch := 1 }
    have hwritten : Written "base" (.delta a) :=
      written_revisionReview "1.0.0@git:a->b" "1.0.1" rfl rfl
    have hcut : arrow? s!"{a.start} -> {a.target}" = some ("1.0.0@git:a", "b -> 1.0.1") := by
      decide +kernel
    have hbefore : version (.str "1.0.0@git:a") auditsFile =
        .ok { major := 1, minor := 0, patch := 0, revision := some "a" } := rfl
    have hafter : version (.str "b -> 1.0.1") auditsFile =
        fail auditsFile (.text (.notVersion "b -> 1.0.1")) := rfl
    have hread : auditEntry a.package (deltaEntry a) auditsFile = _ :=
      auditEntry_deltaEntry (.inl rfl) rfl hcut
    rw [hbefore, ok_bind, hafter] at hread
    obtain ⟨_, s, hentry, hs⟩ := hclaim "base" auditsFile (.delta a) hwritten
    obtain rfl := Except.ok.inj hentry
    cases hread.symm.trans hs
  · intro hclaim
    let a := revisionReview "a->1.0.1@git:b" { major := 2, minor := 0, patch := 0 }
    have hwritten : Written "base" (.delta a) :=
      written_revisionReview "1.0.0@git:a->1.0.1@git:b" "2.0.0" rfl rfl
    have hcut : arrow? s!"{a.start} -> {a.target}" =
        some ("1.0.0@git:a", "1.0.1@git:b -> 2.0.0") := by
      decide +kernel
    have hbefore : version (.str "1.0.0@git:a") auditsFile =
        .ok { major := 1, minor := 0, patch := 0, revision := some "a" } := rfl
    have hafter : version (.str "1.0.1@git:b -> 2.0.0") auditsFile =
        .ok { major := 1, minor := 0, patch := 1, revision := some "b -> 2.0.0" } := rfl
    have hread : auditEntry a.package (deltaEntry a) auditsFile = _ :=
      auditEntry_deltaEntry (.inl rfl) rfl hcut
    rw [hbefore, ok_bind, hafter, ok_bind] at hread
    have hsame := hclaim "base" auditsFile (.delta a) _ _ hwritten rfl hread
    have hversions := congrArg AuditRecord.versions hsame
    exact absurd hversions (by decide)

end Document

end Vetting
