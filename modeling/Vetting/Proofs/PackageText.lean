import Vetting.PackageId
import Vetting.Proofs.VersionText

/-! Texts of versions and of package versions. A version that was read is written so that it reads
back, and no two of them are written alike. A package version reads back unless its text starts with
the mark that stands in front of the version, and with a colon only versions without revision are
read. -/

namespace Vetting

namespace Text

variable {drops : Char → Bool} {c : Char} {cs front back : List Char}

/-- A text is cut at the first occurrence of a character. -/
theorem cut?_singleton_iff :
    cut? [c] cs = some (front, back) ↔ cs = front ++ c :: back ∧ c ∉ front := by
  constructor
  · intro h
    have hparts : cs = front ++ [c] ++ back := eq_append_of_cut? h
    have hfirst : ¬[c] <:+: front := not_infix_of_cut? (List.cons_ne_nil c []) h
    rw [List.singleton_infix_iff] at hfirst
    rw [List.append_assoc] at hparts
    exact ⟨hparts, hfirst⟩
  · intro h
    obtain ⟨rfl, hfirst⟩ := h
    have hnone : ¬[c] <:+: front ++ [c].dropLast := by
      rw [List.dropLast_singleton, List.append_nil, List.singleton_infix_iff]
      exact hfirst
    have hcut : cut? [c] (front ++ [c] ++ back) = some (front, back) := cut?_append hnone back
    rwa [List.append_assoc] at hcut

theorem cut?_singleton_eq_none_iff : cut? [c] cs = none ↔ c ∉ cs := by
  rw [cut?_eq_none_iff, List.singleton_infix_iff]

/-- A text is what is left of it with what was dropped around it. -/
theorem exists_append_trim (drops : Char → Bool) (cs : List Char) : ∃ front back,
    cs = front ++ trim drops cs ++ back ∧ (∀ c ∈ front, drops c = true) ∧
      ∀ c ∈ back, drops c = true := by
  have htaken : ∀ l : List Char, ∀ c ∈ l.takeWhile drops, drops c = true :=
    fun l => List.all_eq_true.1 List.all_takeWhile
  have hback : cs.dropWhile drops =
      trim drops cs ++ ((cs.dropWhile drops).reverse.takeWhile drops).reverse := by
    rw [trim, ← List.reverse_append, List.takeWhile_append_dropWhile, List.reverse_reverse]
  refine ⟨cs.takeWhile drops, ((cs.dropWhile drops).reverse.takeWhile drops).reverse, ?_,
    htaken cs, fun c hc => htaken _ c (List.mem_reverse.1 hc)⟩
  rw [List.append_assoc, ← hback, List.takeWhile_append_dropWhile]

theorem mem_trim_of_mem (hc : c ∈ cs) (hkept : drops c = false) : c ∈ trim drops cs := by
  obtain ⟨front, back, hparts, hfront, hback⟩ := exists_append_trim drops cs
  rw [hparts] at hc
  rcases List.mem_append.1 hc with hc | hc
  · rcases List.mem_append.1 hc with hc | hc
    · exact absurd (hfront c hc) (Bool.eq_false_iff.1 hkept)
    · exact hc
  · exact absurd (hback c hc) (Bool.eq_false_iff.1 hkept)

theorem forall_of_trim_eq_nil (h : trim drops cs = []) : ∀ c ∈ cs, drops c = true := by
  intro c hc
  rw [← Bool.not_eq_false]
  intro hkept
  have hmem : c ∈ trim drops cs := mem_trim_of_mem hc hkept
  rw [h] at hmem
  cases hmem

theorem head?_trim : (trim drops cs).head? = (cs.dropWhile drops).head? := by
  unfold trim
  have hhead := List.head?_dropWhile_not drops cs
  cases hleft : cs.dropWhile drops with
  | nil => rfl
  | cons c rest =>
    rw [hleft] at hhead
    have hkept : drops c = false := by simpa using hhead
    have hlast : [c].dropWhile drops = [c] := dropWhile_eq_self (by simpa using hkept)
    rw [List.reverse_cons, List.dropWhile_append, hlast]
    split
    · rfl
    · rw [List.reverse_append]
      rfl

theorem trim_trim : trim drops (trim drops cs) = trim drops cs := by
  apply trim_eq_self
  · intro c hc
    have hhead := List.head?_dropWhile_not drops cs
    rw [head?_trim] at hc
    rw [hc] at hhead
    simpa using hhead
  · exact fun c hc => of_getLast?_trim hc

/-- What follows a part that is not dropped does not show at the start. -/
theorem head?_trim_append (hne : trim drops front ≠ []) (back : List Char) :
    (trim drops (front ++ back)).head? = (trim drops front).head? := by
  have hleft : front.dropWhile drops ≠ [] := by
    intro hnone
    apply hne
    rw [trim, hnone]
    rfl
  rw [head?_trim, head?_trim, List.dropWhile_append, if_neg (by simpa using hleft),
    List.head?_append_of_ne_nil _ hleft]

end Text

namespace Version

open Text

variable {c : Char} {cs : List Char} {text : String} {v : Version}

theorem parse_text_of_readable (hv : v.Readable) : parse v.text = .ok v := by
  have hnothing : ∀ c ∈ ([] : List Char), isBlank c = true := fun _ hc => absurd hc List.not_mem_nil
  exact parse_of_blanks hv (by simp) hnothing hnothing

/-- A version that was read is written so that it reads back, all its parts and its build metadata
included, and so no other version that was read is written alike. -/
theorem parse_text_of_parse (h : parse text = .ok v) : parse v.text = .ok v ∧
    ∀ other w, parse other = .ok w → w.text = v.text → w = v := by
  have hself : parse v.text = .ok v := parse_text_of_readable (readable_of_parse h)
  refine ⟨hself, fun other w hw halike => ?_⟩
  have hother : parse w.text = .ok w := parse_text_of_readable (readable_of_parse hw)
  rw [halike, hself] at hother
  exact (Except.ok.inj hother).symm

/-- Digits of another script, empty identifiers, and a revision with marks and blanks in it. -/
theorem parse_text_of_parse_oddTags :
    let v : Version := { major := 10, minor := 2, patch := 0, pre := ["", "a-", ""]
                         revision := some " x@git:1", build := "-." }
    parse " 1\u0660.2.0-.a-.+-. @ git: x@git:1 " = .ok v ∧ parse v.text = .ok v ∧
      ∀ other w, parse other = .ok w → w.text = v.text → w = v := by
  intro v
  have h : parse " 1\u0660.2.0-.a-.+-. @ git: x@git:1 " = .ok v := by decide +kernel
  exact ⟨h, parse_text_of_parse h⟩

theorem head?_of_published? (h : published? cs = some v) :
    ∃ c, cs.head? = some c ∧ isAsciiDigit c = true := by
  simp only [published?, Option.bind_eq_bind, Option.bind_eq_some_iff] at h
  obtain ⟨_, hnumber, _⟩ := h
  cases cs with
  | nil => cases hnumber
  | cons c rest =>
    refine ⟨c, rfl, ?_⟩
    rw [number?] at hnumber
    split at hnumber
    · next hzero =>
      rw [hzero]
      decide
    · split at hnumber
      · next hrange =>
        obtain ⟨hlow, hhigh⟩ := Bool.and_eq_true_iff.1 hrange
        have hstart : '0' ≤ c := Char.le_trans (by decide) (of_decide_eq_true hlow)
        exact Bool.and_eq_true_iff.2 ⟨decide_eq_true hstart, hhigh⟩
      · cases hnumber

/-- A version starts with a digit. -/
theorem head?_of_parse (h : parse text = .ok v) :
    ∃ c, (stripped text.toList).head? = some c ∧ isAsciiDigit c = true := by
  rcases parse_eq_ok h with ⟨_, hv⟩ | ⟨front, back, _, _, w, hcut, _, hw, _⟩
  · exact head?_of_published? hv
  · obtain ⟨c, hc, hdigit⟩ := head?_of_published? hw
    obtain ⟨hparts, _⟩ := cut?_singleton_iff.1 hcut
    have hne : stripped front ≠ [] := by
      intro hnil
      rw [hnil] at hc
      cases hc
    have hwhole : stripped (stripped text.toList) = stripped text.toList := trim_trim
    refine ⟨c, ?_, hdigit⟩
    calc (stripped text.toList).head?
        = (stripped (front ++ '@' :: back)).head? := by rw [← hparts, hwhole]
      _ = (stripped front).head? := head?_trim_append hne _
      _ = some c := hc

theorem revision_eq_none_iff (h : parse text = .ok v) : v.revision = none ↔ '@' ∉ text.toList := by
  rcases parse_eq_ok h with ⟨hcut, hv⟩ | ⟨front, back, c, cs, w, hcut, _, _, rfl⟩
  · have hmark : '@' ∉ stripped text.toList := cut?_singleton_eq_none_iff.1 hcut
    have hnone : v.revision = none := (readable_of_published? hv).2
    exact iff_of_true hnone fun hmem => hmark (mem_trim_of_mem hmem (by decide))
  · obtain ⟨hparts, _⟩ := cut?_singleton_iff.1 hcut
    have hmark : '@' ∈ stripped text.toList := by
      rw [hparts]
      exact List.mem_append_right front (List.mem_cons_self ..)
    have hsome : ({ w with revision := some (String.ofList (c :: cs)) } : Version).revision ≠
        none := Option.some_ne_none _
    exact iff_of_false hsome (not_not.2 (infix_of_trim.subset hmark))

/-- What stands behind the mark of a revision is no version by itself. -/
theorem exists_cut_of_revision (h : parse text = .ok v) (hrevision : v.revision ≠ none) :
    ∃ front back f, text.toList = front ++ '@' :: back ∧ '@' ∉ front ∧
      parse (String.ofList back) = .error f := by
  rcases parse_eq_ok h with ⟨_, hv⟩ | ⟨front, back, c, cs, w, hcut, hback, _, _⟩
  · exact absurd (readable_of_published? hv).2 hrevision
  · obtain ⟨hparts, hfirst⟩ := cut?_singleton_iff.1 hcut
    obtain ⟨lead, trail, htext, hlead, _⟩ := exists_append_trim isBlank text.toList
    have hwhole : text.toList = (lead ++ front) ++ '@' :: (back ++ trail) := by
      change text.toList = lead ++ stripped text.toList ++ trail at htext
      rw [hparts] at htext
      rw [htext]
      simp only [List.append_assoc, List.cons_append]
    have hmark : '@' ∉ lead ++ front := by
      intro hmem
      rcases List.mem_append.1 hmem with hmem | hmem
      · exact absurd (hlead '@' hmem) (by decide)
      · exact hfirst hmem
    have hhead : (stripped (String.ofList (back ++ trail)).toList).head? = some 'g' := by
      have hne : stripped back ≠ [] := by
        rw [hback]
        exact List.cons_ne_nil _ _
      rw [String.toList_ofList]
      refine (head?_trim_append hne trail).trans ?_
      change (stripped back).head? = some 'g'
      rw [hback]
      rfl
    cases hparse : parse (String.ofList (back ++ trail)) with
    | error f => exact ⟨lead ++ front, back ++ trail, f, hwhole, hmark, hparse⟩
    | ok w =>
      obtain ⟨d, hd, hdigit⟩ := head?_of_parse hparse
      obtain rfl : 'g' = d := Option.some.inj (hhead.symm.trans hd)
      exact absurd hdigit (by decide)

end Version

namespace PackageId

open Text

variable {mark : Char} {cs front back : List Char} {text name t : String} {id : PackageId}
  {v : Version}

theorem toList_toString :
    (toString id).toList = id.package.toList ++ '@' :: id.version.text.toList := by
  have hmark : (toString "@").toList = ['@'] := rfl
  have hversion : toString id.version = id.version.text := rfl
  have hpackage : toString id.package = id.package := rfl
  have htext : toString id = s!"{id.package}@{id.version}" := rfl
  rw [htext, String.toList_append, String.toList_append, hmark, hversion, hpackage,
    List.append_assoc, List.singleton_append]

theorem cutAt_append (hfirst : mark ∉ front) (hnamed : stripped front ≠ []) (back : List Char) :
    cutAt mark (front ++ mark :: back) =
      some (String.ofList (stripped front), String.ofList back) := by
  have hcut : cut? [mark] (front ++ mark :: back) = some (front, back) :=
    cut?_singleton_iff.2 ⟨rfl, hfirst⟩
  rw [cutAt, hcut]
  exact if_neg (by simpa using hnamed)

theorem cutAt_eq_none_of_not_mem (h : mark ∉ cs) : cutAt mark cs = none := by
  rw [cutAt, cut?_singleton_eq_none_iff.2 h]

theorem cutAt_cons_self : cutAt mark (mark :: cs) = none := by
  have hcut : cut? [mark] (mark :: cs) = some ([], cs) :=
    cut?_singleton_iff.2 ⟨rfl, List.not_mem_nil⟩
  rw [cutAt, hcut]
  rfl

/-- A text that is not cut at a mark which it holds has nothing but blanks in front of it. -/
theorem head?_of_cutAt_eq_none (h : cutAt mark (front ++ back) = none)
    (hmark : isBlank mark = false) (hmem : mark ∈ front) :
    (stripped front).head? = some mark := by
  obtain ⟨before, after, rfl, hfirst⟩ := List.eq_append_cons_of_mem hmem
  have hblank : stripped before = [] := by
    by_contra hnamed
    rw [List.append_assoc, List.cons_append, cutAt_append hfirst hnamed] at h
    cases h
  have hdropped : ∀ c ∈ before, isBlank c = true := forall_of_trim_eq_nil hblank
  have hleft : (before ++ mark :: after).dropWhile isBlank = mark :: after :=
    dropWhile_append_of_forall hdropped (by simpa using hmark)
  rw [stripped, head?_trim, hleft]
  rfl

/-- Which mark a text is cut at: `@`, or `:` where no name stands in front of the first `@`. -/
def Governs (mark : Char) (text : String) : Prop :=
  mark = '@' ∨ mark = ':' ∧ cutAt '@' text.toList = none

/-- What a text is that reads as a package version: a name that is not blank, a mark that is the
first of its kind, and a version. -/
structure Reads (mark : Char) (front back : List Char) (text : String) (id : PackageId) :
    Prop where
  text_eq : text.toList = front ++ mark :: back
  first : mark ∉ front
  named : stripped front ≠ []
  package_eq : id.package = String.ofList (stripped front)
  version_eq : Version.parse (String.ofList back) = .ok id.version

theorem parse_of_governs (hmark : Governs mark text) (htext : text.toList = front ++ mark :: back)
    (hfirst : mark ∉ front) (hnamed : stripped front ≠ []) :
    parse text = (Version.parse (String.ofList back)).map fun v =>
      ⟨String.ofList (stripped front), v⟩ := by
  have hcut : cutAt mark text.toList = some (String.ofList (stripped front), String.ofList back) :=
    htext ▸ cutAt_append hfirst hnamed back
  rcases hmark with rfl | ⟨rfl, hnone⟩
  · rw [parse, hcut]
    rfl
  · rw [parse, hnone, hcut]
    rfl

theorem reads_of_cutAt {version : String} (hcut : cutAt mark text.toList = some (name, version))
    (h : (Version.parse version).map (fun v => (⟨name, v⟩ : PackageId)) = .ok id) :
    ∃ front back, Reads mark front back text id := by
  obtain ⟨v, hv, rfl⟩ := exists_of_map_eq_ok h
  unfold cutAt at hcut
  split at hcut
  · cases hcut
  · next front back hparts =>
    obtain ⟨htext, hfirst⟩ := cut?_singleton_iff.1 hparts
    split at hcut
    · cases hcut
    · next hnamed =>
      cases hcut
      exact ⟨front, back, htext, hfirst, by simpa using hnamed, rfl, hv⟩

theorem parse_eq_ok (h : parse text = .ok id) :
    ∃ mark front back, Governs mark text ∧ Reads mark front back text id := by
  unfold parse at h
  split at h
  · next name version hcut =>
    cases hat : cutAt '@' text.toList with
    | some parts =>
      rw [hat, Option.some_or] at hcut
      rw [hcut] at hat
      obtain ⟨front, back, hreads⟩ := reads_of_cutAt hat h
      exact ⟨'@', front, back, .inl rfl, hreads⟩
    | none =>
      rw [hat, Option.none_or] at hcut
      obtain ⟨front, back, hreads⟩ := reads_of_cutAt hcut h
      exact ⟨':', front, back, .inr ⟨rfl, hat⟩, hreads⟩
  · cases h

theorem Reads.toList_package (h : Reads mark front back text id) :
    id.package.toList = stripped front := by
  rw [h.package_eq, String.toList_ofList]

theorem Reads.head?_package (h : Reads mark front back text id) :
    id.package.toList.head? = (stripped text.toList).head? := by
  have hhead : (stripped (front ++ mark :: back)).head? = (stripped front).head? :=
    head?_trim_append h.named _
  rw [h.toList_package, h.text_eq, hhead]

theorem Reads.stripped_package (h : Reads mark front back text id) :
    stripped id.package.toList = id.package.toList := by
  rw [h.toList_package]
  exact trim_trim

theorem Reads.not_mem_package (h : Reads mark front back text id) : mark ∉ id.package.toList := by
  rw [h.toList_package]
  exact fun hmem => h.first (infix_of_trim.subset hmem)

/-- Whether the first character of a text that is not blank is the mark in front of versions. -/
def StartsWithMark (text : String) : Prop := (stripped text.toList).head? = some '@'

instance : DecidablePred StartsWithMark := fun text =>
  inferInstanceAs (Decidable ((stripped text.toList).head? = some '@'))

/-- A name that was read holds the mark in front of versions only if it starts with it. -/
theorem Reads.at_not_mem_package (h : Reads mark front back text id) (hmark : Governs mark text)
    (hstart : ¬StartsWithMark text) : '@' ∉ id.package.toList := by
  rcases hmark with rfl | ⟨rfl, hnone⟩
  · exact h.not_mem_package
  · intro hmem
    rw [h.toList_package] at hmem
    rw [h.text_eq] at hnone
    have hhead : (stripped front).head? = some '@' :=
      head?_of_cutAt_eq_none hnone (by decide) (infix_of_trim.subset hmem)
    apply hstart
    rw [StartsWithMark, ← h.head?_package, h.toList_package]
    exact hhead

theorem Reads.parse_toString (h : Reads mark front back text id) (hmark : Governs mark text)
    (hstart : ¬StartsWithMark text) : parse (toString id) = .ok id := by
  have hreadable : id.version.Readable := Version.readable_of_parse h.version_eq
  have hnamed : stripped id.package.toList ≠ [] := by
    rw [h.stripped_package, h.toList_package]
    exact h.named
  rw [parse_of_governs (.inl rfl) toList_toString (h.at_not_mem_package hmark hstart) hnamed,
    String.ofList_toList, Version.parse_text_of_readable hreadable, h.stripped_package,
    String.ofList_toList]
  rfl

theorem parse_eq_error (hat : cutAt '@' text.toList = none)
    (hcolon : cutAt ':' text.toList = none) : parse text = .error (.notPackageId text) := by
  rw [parse, hat, hcolon]
  rfl

theorem colon_not_mem_text {v : Version} (hv : v.Readable) (hrevision : v.revision = none) :
    ':' ∉ v.text.toList := by
  intro hmem
  have hchar : Version.isPublishedChar ':' = true :=
    Version.isPublishedChar_of_mem_text hv hrevision hmem
  revert hchar
  decide

/-- The name that is found in a package version with a revision, when the mark is passed over that
its own name starts with. -/
def misreadName (id : PackageId) : String := s!"{id.package}@{id.version.published}@git"

theorem toList_misreadName : id.misreadName.toList =
    id.package.toList ++ '@' :: (id.version.published.text.toList ++ ['@', 'g', 'i', 't']) := by
  have hmark : (toString "@").toList = ['@'] := rfl
  have hend : (toString "@git").toList = ['@', 'g', 'i', 't'] := rfl
  have hversion : toString id.version.published = id.version.published.text := rfl
  have hpackage : toString id.package = id.package := rfl
  rw [misreadName, String.toList_append, String.toList_append, String.toList_append, hmark, hend,
    hversion, hpackage]
  simp only [List.append_assoc, List.cons_append, List.nil_append]

theorem toList_toString_of_revision {r : String} (hv : id.version.Readable)
    (hrevision : id.version.revision = some r) :
    (toString id).toList = id.misreadName.toList ++ ':' :: r.toList := by
  rw [toList_toString, Version.toList_text_eq hv, hrevision, toList_misreadName]
  simp only [Version.revisionText, Version.revisionMark, List.append_assoc, List.cons_append,
    List.nil_append]

theorem colon_not_mem_misreadName (hv : id.version.Readable) (hname : ':' ∉ id.package.toList) :
    ':' ∉ id.misreadName.toList := by
  have hpublished : ':' ∉ id.version.published.text.toList :=
    colon_not_mem_text hv.published rfl
  rw [toList_misreadName, List.mem_append, List.mem_cons, List.mem_append, not_or, not_or, not_or]
  exact ⟨hname, by decide, hpublished, by decide⟩

theorem stripped_misreadName (hname : id.package.toList.head? = some '@') :
    stripped id.misreadName.toList = id.misreadName.toList := by
  apply trim_eq_self
  · intro c hc
    have hne : id.package.toList ≠ [] := by
      intro hnil
      rw [hnil] at hname
      cases hname
    rw [toList_misreadName, List.head?_append_of_ne_nil _ hne, hname] at hc
    obtain rfl := Option.some.inj hc
    decide
  · intro c hc
    rw [toList_misreadName, List.append_cons, ← List.append_assoc,
      List.getLast?_append_of_ne_nil _ (List.cons_ne_nil _ _)] at hc
    obtain rfl := Option.some.inj hc
    decide

/-- A name that starts with the mark in front of versions is passed over when it is read again, and
so the text is cut in its revision, or not at all. -/
theorem Reads.parse_toString_of_mark (h : Reads mark front back text id) (hmark : Governs mark text)
    (hstart : StartsWithMark text) :
    (id.version.revision = none → parse (toString id) = .error (.notPackageId (toString id))) ∧
      ∀ r, id.version.revision = some r → parse (toString id) =
        (Version.parse r).map fun v => ⟨id.misreadName, v⟩ := by
  have hreadable : id.version.Readable := Version.readable_of_parse h.version_eq
  have hhead : id.package.toList.head? = some '@' := h.head?_package.trans hstart
  obtain ⟨rest, hname⟩ := List.head?_eq_some_iff.1 hhead
  have hcolon : ':' ∉ id.package.toList := by
    rcases hmark with rfl | ⟨rfl, _⟩
    · exact absurd (hname ▸ List.mem_cons_self ..) h.not_mem_package
    · exact h.not_mem_package
  have hat : cutAt '@' (toString id).toList = none := by
    rw [toList_toString, hname, List.cons_append]
    exact cutAt_cons_self
  constructor
  · intro hrevision
    apply parse_eq_error hat
    apply cutAt_eq_none_of_not_mem
    rw [toList_toString, List.mem_append, List.mem_cons, not_or, not_or]
    exact ⟨hcolon, by decide, colon_not_mem_text hreadable hrevision⟩
  · intro r hrevision
    have hnamed : stripped id.misreadName.toList ≠ [] := by
      rw [stripped_misreadName hhead, toList_misreadName, hname]
      exact List.cons_ne_nil _ _
    rw [parse_of_governs (.inr ⟨rfl, hat⟩) (toList_toString_of_revision hreadable hrevision)
        (colon_not_mem_misreadName hreadable hcolon) hnamed,
      stripped_misreadName hhead, String.ofList_toList, String.ofList_toList]

theorem misreadName_ne : id.misreadName ≠ id.package := by
  intro hsame
  have hlength : id.misreadName.toList.length = id.package.toList.length := by rw [hsame]
  rw [toList_misreadName, List.length_append, List.length_cons, List.length_append] at hlength
  simp only [List.length_cons] at hlength
  omega

/-- A package version that was read is written so that it reads back, unless its text starts with
the mark in front of versions. Then what is written is refused, or it reads as a version of another
package. -/
theorem parse_toString_iff (h : parse text = .ok id) :
    (parse (toString id) = .ok id ↔ ¬StartsWithMark text) ∧
      (StartsWithMark text →
        (id.version.revision = none →
          parse (toString id) = .error (.notPackageId (toString id))) ∧
        ∀ r, id.version.revision = some r → parse (toString id) =
          (Version.parse r).map fun v => ⟨id.misreadName, v⟩) := by
  obtain ⟨mark, front, back, hmark, hreads⟩ := parse_eq_ok h
  refine ⟨⟨fun hself hstart => ?_, hreads.parse_toString hmark⟩,
    hreads.parse_toString_of_mark hmark⟩
  obtain ⟨hrefused, hmisread⟩ := hreads.parse_toString_of_mark hmark hstart
  cases hrevision : id.version.revision with
  | none =>
    rw [hrefused hrevision] at hself
    cases hself
  | some r =>
    rw [hmisread r hrevision] at hself
    obtain ⟨v, _, hother⟩ := exists_of_map_eq_ok hself
    exact misreadName_ne (congrArg PackageId.package hother)

theorem parse_toString_iff_scoped :
    let id : PackageId := ⟨"@scope/pad", { major := 1, minor := 0, patch := 0
                                           revision := some "2.0.0" }⟩
    parse "@scope/pad:1.0.0@git:2.0.0" = .ok id ∧ parse (toString id) ≠ .ok id ∧
      parse (toString id) =
        .ok ⟨"@scope/pad@1.0.0@git", { major := 2, minor := 0, patch := 0 }⟩ := by
  intro id
  have h : parse "@scope/pad:1.0.0@git:2.0.0" = .ok id := by decide +kernel
  have hstart : StartsWithMark "@scope/pad:1.0.0@git:2.0.0" := by decide +kernel
  have hrevision : Version.parse "2.0.0" = .ok { major := 2, minor := 0, patch := 0 } := by
    decide +kernel
  have hname : id.misreadName = "@scope/pad@1.0.0@git" := by decide +kernel
  obtain ⟨hiff, hmisread⟩ := parse_toString_iff h
  refine ⟨h, fun hself => hiff.1 hself hstart, ?_⟩
  rw [(hmisread hstart).2 "2.0.0" rfl, hrevision, ← hname]
  rfl

theorem exists_name_that_does_not_read_back : ∃ id,
    parse "@scope/pad:1.0.0" = .ok id ∧ toString id = "@scope/pad@1.0.0" ∧
      parse (toString id) = .error (.notPackageId "@scope/pad@1.0.0") :=
  ⟨⟨"@scope/pad", { major := 1, minor := 0, patch := 0 }⟩, by decide +kernel, by decide +kernel,
    by decide +kernel⟩

/-- A name without blanks around it in which neither mark occurs. -/
structure PlainName (name : String) : Prop where
  ne_empty : name ≠ ""
  strip_eq : strip name = name
  at_not_mem : '@' ∉ name.toList
  colon_not_mem : ':' ∉ name.toList

theorem PlainName.stripped_eq (h : PlainName name) : stripped name.toList = name.toList := by
  rw [← toList_strip, h.strip_eq]

theorem PlainName.stripped_ne_nil (h : PlainName name) : stripped name.toList ≠ [] := by
  rw [h.stripped_eq]
  exact mt String.toList_eq_nil_iff.1 h.ne_empty

theorem PlainName.parse_append (h : PlainName name) {sep : String} (hsep : sep.toList = [mark])
    (hmark : Governs mark (name ++ sep ++ t)) (hfirst : mark ∉ name.toList) :
    parse (name ++ sep ++ t) = (Version.parse t).map fun v => ⟨name, v⟩ := by
  have htext : (name ++ sep ++ t).toList = name.toList ++ mark :: t.toList := by
    rw [String.toList_append, String.toList_append, hsep, List.append_assoc, List.singleton_append]
  rw [parse_of_governs hmark htext hfirst h.stripped_ne_nil, h.stripped_eq, String.ofList_toList,
    String.ofList_toList]

theorem PlainName.parse_at (hname : PlainName name) (h : Version.parse t = .ok v) :
    parse (name ++ "@" ++ t) = .ok ⟨name, v⟩ := by
  rw [hname.parse_append rfl (.inl rfl) hname.at_not_mem, h]
  rfl

theorem PlainName.parse_colon (hname : PlainName name) (h : Version.parse t = .ok v)
    (hrevision : v.revision = none) : parse (name ++ ":" ++ t) = .ok ⟨name, v⟩ := by
  have hversion : '@' ∉ t.toList := (Version.revision_eq_none_iff h).1 hrevision
  have hnone : '@' ∉ (name ++ ":" ++ t).toList := by
    rw [String.toList_append, String.toList_append, List.mem_append, List.mem_append, not_or,
      not_or]
    exact ⟨⟨hname.at_not_mem, by decide⟩, hversion⟩
  have hmark : Governs ':' (name ++ ":" ++ t) := .inr ⟨rfl, cutAt_eq_none_of_not_mem hnone⟩
  rw [hname.parse_append rfl hmark hname.colon_not_mem, h]
  rfl

/-- Where the version has a revision, its mark is the first `@`, and that is looked for before the
colon. -/
theorem PlainName.parse_colon_of_revision (hname : PlainName name) (h : Version.parse t = .ok v)
    (hrevision : v.revision ≠ none) : ∃ front back f, t = front ++ "@" ++ back ∧
      '@' ∉ front.toList ∧ Version.parse back = .error f ∧
        parse (name ++ ":" ++ t) = .error f := by
  obtain ⟨front, back, f, hparts, hfirst, hfault⟩ := Version.exists_cut_of_revision h hrevision
  have ht : t = String.ofList front ++ "@" ++ String.ofList back := by
    have hmark : "@".toList = ['@'] := rfl
    apply String.toList_inj.1
    simp only [String.toList_append, String.toList_ofList, hmark, hparts, List.append_assoc,
      List.singleton_append]
  have htext : (name ++ ":" ++ t).toList = (name.toList ++ ':' :: front) ++ '@' :: back := by
    have hmark : ":".toList = [':'] := rfl
    simp only [String.toList_append, hmark, hparts, List.append_assoc, List.cons_append,
      List.nil_append]
  have hmark : '@' ∉ name.toList ++ ':' :: front := by
    rw [List.mem_append, List.mem_cons, not_or, not_or]
    exact ⟨hname.at_not_mem, by decide, hfirst⟩
  have hcolon : ':' ∈ name.toList ++ ':' :: front :=
    List.mem_append_right _ (List.mem_cons_self ..)
  have hnamed : stripped (name.toList ++ ':' :: front) ≠ [] :=
    List.ne_nil_of_mem (mem_trim_of_mem hcolon (by decide))
  have hrefused : parse (name ++ ":" ++ t) = .error f := by
    rw [parse_of_governs (.inl rfl) htext hmark hnamed, hfault]
    rfl
  rw [← String.toList_ofList (l := front)] at hfirst
  exact ⟨String.ofList front, String.ofList back, f, ht, hfirst, hfault, hrefused⟩

/-- Behind a name without marks `@` and `:` stand for the same, unless the version has a revision.
Then the text with a colon is cut at the mark of the revision, and what is left is no version. -/
theorem parse_colon_iff (hname : PlainName name) (h : Version.parse t = .ok v) :
    parse (name ++ "@" ++ t) = .ok ⟨name, v⟩ ∧
      (parse (name ++ ":" ++ t) = .ok ⟨name, v⟩ ↔ v.revision = none) ∧
      (v.revision ≠ none → ∃ front back f, t = front ++ "@" ++ back ∧ '@' ∉ front.toList ∧
        Version.parse back = .error f ∧ parse (name ++ ":" ++ t) = .error f) := by
  refine ⟨hname.parse_at h, ⟨fun hcolon => ?_, hname.parse_colon h⟩,
    hname.parse_colon_of_revision h⟩
  by_contra hrevision
  obtain ⟨_, _, _, _, _, _, hrefused⟩ := hname.parse_colon_of_revision h hrevision
  rw [hcolon] at hrefused
  cases hrefused

theorem parse_colon_iff_pinned :
    let v : Version := { major := 1, minor := 0, patch := 0, revision := some "b@1" }
    PlainName "pad" ∧ Version.parse "1.0.0@git:b@1" = .ok v ∧
      parse "pad@1.0.0@git:b@1" = .ok ⟨"pad", v⟩ ∧ parse "pad:1.0.0@git:b@1" ≠ .ok ⟨"pad", v⟩ := by
  intro v
  have hname : PlainName "pad" := ⟨by decide, by decide +kernel, by decide, by decide⟩
  have h : Version.parse "1.0.0@git:b@1" = .ok v := by decide +kernel
  obtain ⟨hat, hcolon, _⟩ := parse_colon_iff hname h
  exact ⟨hname, h, hat, fun hself => by cases hcolon.1 hself⟩

theorem exists_pinned_version_not_read_behind_colon :
    PlainName "pad" ∧ (∃ v, Version.parse "1.0.0@git:abc" = .ok v) ∧
      parse ("pad" ++ ":" ++ "1.0.0@git:abc") = .error (.notVersion "git:abc") :=
  ⟨⟨by decide, by decide +kernel, by decide, by decide⟩,
    ⟨{ major := 1, minor := 0, patch := 0, revision := some "abc" }, by decide +kernel⟩,
    by decide +kernel⟩

end PackageId

end Vetting
