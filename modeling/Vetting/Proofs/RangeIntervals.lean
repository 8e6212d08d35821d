import Vetting.Proofs.RangeText
import Vetting.Proofs.SemanticPrecedence

/-! The short forms of ranges. A caret, a tilde and a bare bound stand for the versions from that
bound up to the next that is not compatible with it, whose pre-releases are left out. -/

namespace Vetting

open Text

namespace Identifier

theorem compareIdentifiers_zero_ne_lt (i : String) : compareIdentifiers i "0" ≠ .lt := by
  have hzero : identifierNumber? "0" = some 0 := identifierNumber?_toString 0
  cases hi : identifierNumber? i with
  | some n =>
    rw [compareIdentifiers_of_numbers hi hzero]
    exact fun h => Nat.not_lt_zero n (compare_lt_iff_lt.1 h)
  | none =>
    rw [@Std.OrientedCmp.eq_swap _ compareIdentifiers _ i "0",
      compareIdentifiers_of_number_word hzero hi]
    decide

/-- Nothing comes before the pre-release that is named by a zero. -/
theorem comparePre_zero_ne_lt (p : List String) : comparePre p ["0"] ≠ .lt := by
  cases p with
  | nil => decide
  | cons i p =>
    have hrest : List.compareLex compareIdentifiers p [] ≠ .lt := by
      cases p with
      | nil => decide
      | cons j p =>
        rw [List.compareLex_cons_nil]
        decide
    rw [comparePre_eq, Ne, Ordering.then_eq_lt, List.compareLex_cons_cons, Ordering.then_eq_lt]
    rintro (h | ⟨_, h | ⟨_, h⟩⟩)
    · cases h
    · exact compareIdentifiers_zero_ne_lt i h
    · exact hrest h

end Identifier

namespace Release

variable {a b : Release}

/-- Whether the three numbers of a release come before those of another. -/
def TripleBefore (a b : Release) : Prop :=
  a.major < b.major ∨ a.major = b.major ∧ (a.minor < b.minor ∨ a.minor = b.minor ∧
    a.patch < b.patch)

theorem TripleBefore.precedes (h : TripleBefore a b) : a.precedes b = true := by
  rw [precedes_iff_cases]
  exact h.imp_right (And.imp_right (Or.imp_right (And.imp_right .inl)))

theorem not_tripleBefore (h : a.precedes b = false) : ¬a.TripleBefore b := fun hbefore =>
  Bool.eq_false_iff.1 h hbefore.precedes

theorem TripleBefore.not_sameTriple (h : TripleBefore a b) : ¬a.SameTriple b := by
  unfold TripleBefore at h
  unfold SameTriple
  omega

/-- The least pre-release of a release. -/
def first (r : Release) : Release := { r with pre := ["0"] }

/-- Before the least pre-release are the releases whose numbers come before its own. -/
theorem precedes_first_iff (ha : a.revision = none) (hb : b.revision = none) :
    a.precedes b.first = true ↔ a.TripleBefore b := by
  have hlast : ¬(a.patch = b.patch ∧ comparePre a.pre ["0"] = .lt) := fun h =>
    Identifier.comparePre_zero_ne_lt a.pre h.2
  have hfirst : b.first.revision = none := hb
  rw [precedes_iff_of_revision ha hfirst, TripleBefore]
  dsimp only [first]
  rw [or_iff_left hlast]

end Release

namespace RangeAtom

/-- The first version that is not compatible with a bound: the left-most of its numbers that is not
zero is one more there. -/
def compatibleEnd (bound : Release) : Version :=
  if bound.major ≠ 0 then { major := bound.major + 1, minor := 0, patch := 0 }
  else if bound.minor ≠ 0 then { major := 0, minor := bound.minor + 1, patch := 0 }
  else { major := 0, minor := 0, patch := bound.patch + 1 }

/-- The first version of the next minor line. -/
def minorEnd (bound : Release) : Version :=
  { major := bound.major, minor := bound.minor + 1, patch := 0 }

variable {bound r : Release}

theorem sameLine_iff (h : ¬r.TripleBefore bound) :
    sameLine bound r = true ↔ r.TripleBefore (compatibleEnd bound).toRelease := by
  -- What is not below the bound agrees with it up to its first number or is above it there.
  unfold Release.TripleBefore at h ⊢
  unfold sameLine compatibleEnd
  split
  · rw [beq_iff_eq]
    dsimp only
    omega
  · split
    · rw [Bool.and_eq_true, beq_iff_eq, beq_iff_eq]
      dsimp only
      omega
    · rw [Bool.and_eq_true, Bool.and_eq_true, beq_iff_eq, beq_iff_eq, beq_iff_eq]
      dsimp only
      omega

theorem sameMinor_iff (h : ¬r.TripleBefore bound) :
    (r.major == bound.major && r.minor == bound.minor) = true ↔
      r.TripleBefore (minorEnd bound).toRelease := by
  unfold Release.TripleBefore at h ⊢
  unfold minorEnd
  rw [Bool.and_eq_true, beq_iff_eq, beq_iff_eq]
  dsimp only
  omega

/-- What lies between a bound and the least pre-release of a limit. -/
def Between (bound limit r : Release) : Prop :=
  r.precedes bound = false ∧ r.TripleBefore limit

theorem admits_caret_iff :
    admits ⟨.caret, bound⟩ r = true ↔ Between bound (compatibleEnd bound).toRelease r := by
  have hadmits : admits ⟨.caret, bound⟩ r = (!r.precedes bound && sameLine bound r) := rfl
  rw [hadmits, Bool.and_eq_true, Bool.not_eq_true', Between]
  exact and_congr_right fun h => sameLine_iff (Release.not_tripleBefore h)

theorem admits_tilde_iff :
    admits ⟨.tilde, bound⟩ r = true ↔ Between bound (minorEnd bound).toRelease r := by
  have hadmits : admits ⟨.tilde, bound⟩ r =
      (!r.precedes bound && r.major == bound.major && r.minor == bound.minor) := rfl
  rw [hadmits, Bool.and_assoc, Bool.and_eq_true, Bool.not_eq_true', Between]
  exact and_congr_right fun h => sameMinor_iff (Release.not_tripleBefore h)

end RangeAtom

namespace Version

/-- A version that is its three numbers and nothing else. -/
structure Plain (v : Version) : Prop where
  pre : v.pre = []
  revision : v.revision = none
  build : v.build = ""

variable {bound r : Release}

theorem plain_compatibleEnd : (RangeAtom.compatibleEnd bound).Plain := by
  unfold RangeAtom.compatibleEnd
  split
  · exact ⟨rfl, rfl, rfl⟩
  · split
    · exact ⟨rfl, rfl, rfl⟩
    · exact ⟨rfl, rfl, rfl⟩

theorem plain_minorEnd : (RangeAtom.minorEnd bound).Plain := ⟨rfl, rfl, rfl⟩

variable {v : Version}

/-- The least pre-release of a version. -/
def first (v : Version) : Version := { v with toRelease := v.toRelease.first }

theorem Plain.text_first (h : v.Plain) : v.first.text = v.text ++ "-0" := by
  obtain ⟨hpre, hrevision, hbuild⟩ := h
  simp [text, first, Release.first, hpre, hrevision, hbuild]

theorem Plain.readable_first (h : v.Plain) : v.first.Readable := by
  refine ⟨⟨['0'], rfl, List.forall_mem_singleton.2 rfl⟩, fun c hc => ?_, fun r hr => ?_⟩
  · rw [first, h.build] at hc
    exact absurd hc List.not_mem_nil
  · exact absurd (hr.symm.trans h.revision) (Option.some_ne_none r)

end Version

namespace VersionRange

variable {B raw : String} {bound limit : Version} {r : Release}

/-- The text of the range from a bound up to the least pre-release of a version. -/
def intervalText (bound : String) (limit : Version) : String :=
  ">=" ++ bound ++ ", <" ++ limit.text ++ "-0"

/-- The two atoms of that range. -/
def intervalAtoms (bound limit : Release) : List RangeAtom :=
  [⟨.atLeast, bound⟩, ⟨.below, limit.first⟩]

theorem toList_intervalText (hlimit : limit.Plain) : (intervalText B limit).toList =
    ([] ++ (">=".toList ++ B.toList)) ++
      ',' :: ([' '] ++ ("<".toList ++ limit.first.text.toList)) := by
  rw [hlimit.text_first]
  simp [intervalText]

theorem parse_intervalText (hB : RangeAtom.Accepts B bound) (hlimit : limit.Plain) :
    parse (intervalText B limit) =
      .ok ⟨intervalText B limit, intervalAtoms bound.toRelease limit.toRelease⟩ := by
  have hfirst : RangeAtom.Accepts limit.first.text limit.first :=
    RangeAtom.accepts_text hlimit.readable_first hlimit.revision
  have hlow : RangeAtom.Spells ([] ++ (">=".toList ++ B.toList)) ⟨.atLeast, bound.toRelease⟩ :=
    .mk (fun _ h => absurd h List.not_mem_nil) (.inl rfl) hB
  have hhigh : RangeAtom.Spells ([' '] ++ ("<".toList ++ limit.first.text.toList))
      ⟨.below, limit.first.toRelease⟩ := .mk (List.forall_mem_singleton.2 rfl) (.inl rfl) hfirst
  have hraw := @toList_intervalText B limit hlimit
  have hatoms := RangeAtom.mapM_splitAt_cons hlow (RangeAtom.mapM_splitAt_single hhigh)
  rw [← hraw] at hatoms
  refine parse_of_atoms hfirst ?_ (fun c hc => ?_) hatoms
  · rw [hraw, ← List.append_assoc [' '], List.append_cons, ← List.append_assoc]
    exact List.suffix_append _ _
  · rw [hraw] at hc
    cases hc
    decide

theorem contains_interval_iff (hlimit : limit.revision = none) :
    contains ⟨raw, intervalAtoms bound.toRelease limit.toRelease⟩ r = true ↔
      RangeAtom.Between bound.toRelease limit.toRelease r.published := by
  have hcontains : contains ⟨raw, intervalAtoms bound.toRelease limit.toRelease⟩ r =
      (!r.published.precedes bound.toRelease &&
        (r.published.precedes limit.toRelease.first && true)) := rfl
  rw [hcontains, Bool.and_true, Bool.and_eq_true, Bool.not_eq_true',
    Release.precedes_first_iff rfl hlimit, RangeAtom.Between]

/-- Whether a text reads as the range from a bound up to the least pre-release of a version. Nothing
with the numbers of that version is in it, and revisions do not count. -/
def ReadsAsInterval (text bound : String) (limit : Version) : Prop :=
  ∃ range interval, parse text = .ok range ∧ parse (intervalText bound limit) = .ok interval ∧
    (∀ r, range.contains r = interval.contains r) ∧
    (∀ r, r.SameTriple limit.toRelease → range.contains r = false) ∧
    ∀ r, range.contains r = range.contains r.published

theorem readsAsInterval_of_admits {op : Comparator} {mark : List Char} (hmark : op.Writes mark)
    (hB : RangeAtom.Accepts B bound) (hraw : raw.toList = mark ++ B.toList) (hlimit : limit.Plain)
    (hadmits : ∀ r, RangeAtom.admits ⟨op, bound.toRelease⟩ r = true ↔
      RangeAtom.Between bound.toRelease limit.toRelease r) : ReadsAsInterval raw B limit := by
  have hcontains : ∀ r, contains ⟨raw, [⟨op, bound.toRelease⟩]⟩ r = true ↔
      RangeAtom.Between bound.toRelease limit.toRelease r.published := by
    intro r
    rw [← hadmits, contains, List.all_cons, List.all_nil, Bool.and_true]
  refine ⟨_, _, parse_single hmark hB hraw, parse_intervalText hB hlimit, fun r => ?_,
    fun r hr => ?_, fun r => rfl⟩
  · rw [Bool.eq_iff_iff, hcontains, contains_interval_iff hlimit.revision]
  · rw [← Bool.not_eq_true, hcontains]
    exact fun hbetween => hbetween.2.not_sameTriple hr

/-- A caret and a bare bound stand for what is compatible with the bound, and a tilde for what is of
its minor line: from the bound up to the first version that is not, and none of its pre-releases. -/
theorem short_forms_are_intervals (hB : RangeAtom.Accepts B bound) :
    ReadsAsInterval ("^" ++ B) B (RangeAtom.compatibleEnd bound.toRelease) ∧
      ReadsAsInterval B B (RangeAtom.compatibleEnd bound.toRelease) ∧
      ReadsAsInterval ("~" ++ B) B (RangeAtom.minorEnd bound.toRelease) := by
  refine ⟨?_, ?_, ?_⟩
  · exact readsAsInterval_of_admits (.inl rfl) hB String.toList_append Version.plain_compatibleEnd
      fun r => RangeAtom.admits_caret_iff
  · exact readsAsInterval_of_admits (.inr ⟨rfl, rfl⟩) hB rfl Version.plain_compatibleEnd
      fun r => RangeAtom.admits_caret_iff
  · exact readsAsInterval_of_admits (.inl rfl) hB String.toList_append Version.plain_minorEnd
      fun r => RangeAtom.admits_tilde_iff

theorem short_forms_are_intervals_zeros :
    let bound : Version := { major := 0, minor := 2, patch := 0, pre := ["01", ""], build := "b" }
    RangeAtom.Accepts "0.2.0-01.+b" bound ∧
      ReadsAsInterval "^0.2.0-01.+b" "0.2.0-01.+b" { major := 0, minor := 3, patch := 0 } ∧
      ReadsAsInterval "0.2.0-01.+b" "0.2.0-01.+b" { major := 0, minor := 3, patch := 0 } ∧
      ReadsAsInterval "~0.2.0-01.+b" "0.2.0-01.+b" { major := 0, minor := 3, patch := 0 } := by
  intro bound
  have hbound : RangeAtom.Accepts "0.2.0-01.+b" bound :=
    ⟨⟨"0.2.0-01.+b".toList, by decide +kernel⟩, by decide +kernel⟩
  exact ⟨hbound, short_forms_are_intervals hbound⟩

end VersionRange

end Vetting
