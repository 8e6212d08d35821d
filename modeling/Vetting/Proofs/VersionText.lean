import Mathlib.Data.List.Infix
import Vetting.Proofs.Obligation
import Vetting.Version.Text

/-! Versions and their texts. A version that was read from a text is written as one that reads back,
with or without blanks around it, and its revision is a part of the text that it was read from. -/

namespace Vetting

namespace Text

variable {drops : Char → Bool} {c : Char} {cs front back : List Char} {n : Nat}

theorem dropWhile_append_of_forall (hfront : ∀ c ∈ front, drops c = true)
    (hhead : ∀ c, cs.head? = some c → drops c = false) : (front ++ cs).dropWhile drops = cs := by
  rw [List.dropWhile_append_of_pos hfront, dropWhile_eq_self hhead]

/-- What is dropped at both ends leaves the text between that starts and ends with what is kept. -/
theorem trim_append (hfront : ∀ c ∈ front, drops c = true) (hback : ∀ c ∈ back, drops c = true)
    (hhead : ∀ c, cs.head? = some c → drops c = false)
    (hlast : ∀ c, cs.getLast? = some c → drops c = false) (hne : cs ≠ []) :
    trim drops (front ++ cs ++ back) = cs := by
  have hrest : ∀ c, (cs ++ back).head? = some c → drops c = false := by
    intro c hc
    rw [List.head?_append_of_ne_nil _ hne] at hc
    exact hhead c hc
  have hback' : ∀ c ∈ back.reverse, drops c = true := fun c hc => hback c (List.mem_reverse.1 hc)
  rw [trim, List.append_assoc, dropWhile_append_of_forall hfront hrest, List.reverse_append,
    dropWhile_append_of_forall hback' (by simpa using hlast), List.reverse_reverse]

theorem of_getLast?_trim (h : (trim drops cs).getLast? = some c) : drops c = false := by
  rw [trim, List.getLast?_reverse] at h
  have hne := List.head?_dropWhile_not drops (cs.dropWhile drops).reverse
  rw [h] at hne
  simpa using hne

theorem infix_of_trim : trim drops cs <:+: cs := by
  have hback : (trim drops cs) <+: cs.dropWhile drops := by
    rw [← List.reverse_suffix, trim, List.reverse_reverse]
    exact List.dropWhile_suffix drops
  exact hback.isInfix.trans (List.dropWhile_suffix drops).isInfix

theorem dropStart?_eq_none_iff {sep : List Char} : dropStart? sep cs = none ↔ ¬sep <+: cs := by
  constructor
  · rintro h ⟨rest, rfl⟩
    rw [dropStart?_append] at h
    cases h
  · intro h
    cases hdrop : dropStart? sep cs with
    | none => rfl
    | some rest => exact absurd ⟨rest, (eq_append_of_dropStart? hdrop).symm⟩ h

/-- A text is cut at a separator that occurs no earlier, not even by half. -/
theorem cut?_append {sep : List Char} (h : ¬sep <:+: front ++ sep.dropLast) (back : List Char) :
    cut? sep (front ++ sep ++ back) = some (front, back) := by
  induction front with
  | nil =>
    cases sep with
    | nil => exact absurd (List.nil_infix) h
    | cons c sep =>
      have hdrop := dropStart?_append (c :: sep) back
      rw [List.cons_append] at hdrop
      rw [List.nil_append, List.cons_append, cut?, hdrop]
  | cons c front ih =>
    have hrest : ¬sep <:+: front ++ sep.dropLast := fun hin => h (List.infix_cons hin)
    have hnone : dropStart? sep (c :: (front ++ sep ++ back)) = none := by
      rw [dropStart?_eq_none_iff]
      intro hprefix
      have hpart : c :: front ++ sep.dropLast <+: c :: (front ++ sep ++ back) := by
        rw [List.append_assoc, ← List.cons_append, List.prefix_append_right_inj]
        exact (List.dropLast_prefix sep).trans (List.prefix_append sep back)
      have hlength : sep.length ≤ (c :: front ++ sep.dropLast).length := by
        rw [List.length_append, List.length_cons, List.length_dropLast]
        omega
      exact h (List.prefix_of_prefix_length_le hprefix hpart hlength).isInfix
    rw [List.cons_append, List.cons_append, cut?, hnone]
    dsimp only
    rw [ih hrest]
    rfl

theorem cut?_eq_none_iff {sep : List Char} : cut? sep cs = none ↔ ¬sep <:+: cs := by
  constructor
  · intro h
    induction cs with
    | nil =>
      rw [cut?, Option.map_eq_none_iff, dropStart?_eq_none_iff] at h
      rwa [List.infix_nil, ← List.prefix_nil]
    | cons c cs ih =>
      rw [cut?] at h
      split at h
      · cases h
      · next hnone =>
        rw [List.infix_cons_iff, not_or]
        exact ⟨dropStart?_eq_none_iff.1 hnone, ih (Option.map_eq_none_iff.1 h)⟩
  · intro h
    cases hcut : cut? sep cs with
    | none => rfl
    | some parts =>
      obtain ⟨before, after⟩ := parts
      exact absurd ⟨before, after, (eq_append_of_cut? hcut).symm⟩ h

/-- A text is cut at the first separator: there is none in what comes before. -/
theorem not_infix_of_cut? {sep before after : List Char} (hsep : sep ≠ [])
    (h : cut? sep cs = some (before, after)) : ¬sep <:+: before := by
  induction cs generalizing before with
  | nil =>
    obtain ⟨rest, _, hparts⟩ := Option.map_eq_some_iff.1 h
    obtain ⟨rfl, _⟩ := Prod.mk.inj hparts
    exact fun hin => hsep (List.infix_nil.1 hin)
  | cons c cs ih =>
    simp only [cut?] at h
    split at h
    · next rest hrest =>
      obtain ⟨rfl, _⟩ := Prod.mk.inj (Option.some.inj h)
      exact fun hin => hsep (List.infix_nil.1 hin)
    · next hnone =>
      obtain ⟨⟨front, back⟩, hcut, hparts⟩ := Option.map_eq_some_iff.1 h
      obtain ⟨rfl, rfl⟩ := Prod.mk.inj hparts
      intro hin
      rcases List.infix_cons_iff.1 hin with hprefix | hin
      · apply dropStart?_eq_none_iff.1 hnone
        rw [eq_append_of_cut? hcut, List.append_assoc, ← List.cons_append]
        exact hprefix.trans (List.prefix_append _ _)
      · exact ih hcut hin

theorem intercalate_splitAt (sep : Char) (cs : List Char) :
    [sep].intercalate (splitAt sep cs) = cs := by
  induction cs with
  | nil => rfl
  | cons c cs ih =>
    obtain ⟨piece, pieces, hsplit⟩ := List.exists_cons_of_ne_nil (splitAt_ne_nil sep cs)
    rw [hsplit] at ih
    rw [splitAt]
    split
    · next hc =>
      rw [hsplit, List.intercalate_cons_cons, ih, hc]
      rfl
    · rw [hsplit]
      dsimp only
      rw [List.intercalate_cons_cons_left, ih]

/-! The digits of a number, as they are written and read. -/

theorem digitValue?_of_isDigit (h : c.isDigit = true) : digitValue? c = some (c.toNat - 48) := by
  have hrange : 48 ≤ c.toNat ∧ c.toNat < 58 :=
    (Char.isDigit_iff_toNat.1 h).imp_right Nat.lt_succ_of_le
  simp [digitValue?, digitZeros, hrange]

theorem number_of_isDigit (h : ∀ c ∈ cs, c.isDigit = true) :
    number cs = Nat.ofDigitChars 10 cs 0 := by
  rw [number, Nat.ofDigitChars_eq_foldl]
  apply List.foldl_ext
  intro n c hc
  rw [digitValue?_of_isDigit (h c hc)]
  rfl

theorem number_toDigits (n : Nat) : number (Nat.toDigits 10 n) = n := by
  rw [number_of_isDigit fun c hc => Nat.isDigit_of_mem_toDigits (by decide) (by decide) hc,
    Nat.ofDigitChars_toDigits (by decide) (by decide)]

theorem takeWhile_append_of_forall {p : Char → Bool} (hfront : ∀ c ∈ front, p c = true)
    (hhead : ∀ c, cs.head? = some c → p c = false) : (front ++ cs).takeWhile p = front := by
  rw [List.takeWhile_append_of_pos hfront]
  cases cs with
  | nil => rw [List.takeWhile_nil, List.append_nil]
  | cons c cs => rw [List.takeWhile_cons_of_neg (by simp [hhead c rfl]), List.append_nil]

theorem exists_toDigits_eq_cons (hn : 0 < n) :
    ∃ c ds, Nat.toDigits 10 n = c :: ds ∧ '1' ≤ c ∧ c ≤ '9' := by
  induction n using Nat.strongRecOn with
  | ind n ih =>
    rw [Nat.toDigits_eq_if (by decide)]
    split
    · next hlt =>
      have hdigit := Nat.toNat_digitChar_of_lt_ten hlt
      refine ⟨_, [], rfl, ?_, ?_⟩
      · rw [Char.le_def, UInt32.le_iff_toNat_le]
        change 49 ≤ (Nat.digitChar n).toNat
        omega
      · rw [Char.le_def, UInt32.le_iff_toNat_le]
        change (Nat.digitChar n).toNat ≤ 57
        omega
    · next hge =>
      obtain ⟨c, ds, hds, hfirst⟩ := ih (n / 10) (by omega) (by omega)
      exact ⟨c, ds ++ [Nat.digitChar (n % 10)], by rw [hds]; rfl, hfirst⟩

end Text

namespace Version

open Text

variable {n : Nat} {mark c : Char} {cs tag rest front back : List Char}

theorem number?_toDigits (hrest : ∀ c, rest.head? = some c → isDecimalDigit c = false) :
    number? (Nat.toDigits 10 n ++ rest) = some (n, rest) := by
  rcases Nat.eq_zero_or_pos n with rfl | hn
  · rw [Nat.toDigits_zero]
    rfl
  · obtain ⟨c, ds, hds, hlow, hhigh⟩ := exists_toDigits_eq_cons hn
    have hdigits : ∀ d ∈ ds, isDecimalDigit d = true := by
      intro d hd
      have hdigit : d.isDigit = true := Nat.isDigit_of_mem_toDigits (by decide) (by decide)
        (hds ▸ List.mem_cons_of_mem c hd)
      rw [isDecimalDigit, digitValue?_of_isDigit hdigit]
      rfl
    have hzero : c ≠ '0' := fun h => absurd (h ▸ hlow) (by decide)
    rw [hds, List.cons_append, number?, if_neg hzero, if_pos (by simp [hlow, hhigh]),
      takeWhile_append_of_forall hdigits hrest, dropWhile_append_of_forall hdigits hrest, ← hds,
      number_toDigits]

theorem tag?_mark (htag : ∀ c ∈ tag, isTagChar c = true) (hne : tag ≠ [])
    (hrest : ∀ c, rest.head? = some c → isTagChar c = false) :
    tag? mark (mark :: (tag ++ rest)) = some (tag, rest) := by
  rw [tag?, if_pos rfl, takeWhile_append_of_forall htag hrest,
    dropWhile_append_of_forall htag hrest]
  cases tag with
  | nil => exact absurd rfl hne
  | cons c tag => rfl

theorem tag?_of_head (h : ∀ c, cs.head? = some c → c ≠ mark) : tag? mark cs = some ([], cs) := by
  cases cs with
  | nil => rfl
  | cons c cs => rw [tag?, if_neg (h c rfl)]

/-- What holds of all versions that were read: the tags are spelled with the characters of tags, and
a revision says something and does not end with a blank. -/
structure Readable (v : Version) : Prop where
  pre : ∃ tag, v.pre = identifiers tag ∧ ∀ c ∈ tag, isTagChar c = true
  build : ∀ c ∈ v.build.toList, isTagChar c = true
  revision : ∀ r, v.revision = some r →
    r ≠ "" ∧ ∀ c, r.toList.getLast? = some c → isBlank c = false

/-- A tag behind its mark; nothing where there is no tag. -/
def tagText (mark : Char) : List Char → List Char
  | [] => []
  | tag => mark :: tag

def revisionText : Option String → List Char
  | none => []
  | some r => '@' :: revisionMark ++ r.toList

theorem toList_intercalate_identifiers : (".".intercalate (identifiers tag)).toList = tag := by
  cases tag with
  | nil => rfl
  | cons c cs =>
    have hpieces : (identifiers (c :: cs)).map String.toList = splitAt '.' (c :: cs) := by
      change ((splitAt '.' (c :: cs)).map String.ofList).map String.toList = _
      rw [List.map_map]
      exact List.map_id'' (fun piece => String.toList_ofList) _
    rw [String.toList_intercalate, hpieces]
    exact intercalate_splitAt '.' (c :: cs)

theorem isEmpty_identifiers : (identifiers tag).isEmpty = tag.isEmpty := by
  cases tag with
  | nil => rfl
  | cons c cs =>
    change ((splitAt '.' (c :: cs)).map String.ofList).isEmpty = false
    rw [List.isEmpty_map, List.isEmpty_eq_false_iff]
    exact splitAt_ne_nil '.' _

theorem toList_text {v : Version} (hpre : v.pre = identifiers tag) :
    v.text.toList = Nat.toDigits 10 v.major ++ '.' :: (Nat.toDigits 10 v.minor ++
      '.' :: (Nat.toDigits 10 v.patch ++ (tagText '-' tag ++ tagText '+' v.build.toList))) ++
        revisionText v.revision := by
  have hpreText : (if v.pre.isEmpty then "" else "-" ++ ".".intercalate v.pre).toList =
      tagText '-' tag := by
    rw [hpre, isEmpty_identifiers]
    cases tag with
    | nil => rfl
    | cons c cs =>
      rw [List.isEmpty_cons, if_neg Bool.false_ne_true, String.toList_append,
        toList_intercalate_identifiers]
      rfl
  have hbuildText : (if v.build.isEmpty then "" else "+" ++ v.build).toList =
      tagText '+' v.build.toList := by
    by_cases hbuild : v.build = ""
    · rw [hbuild]
      rfl
    · obtain ⟨c, cs, hchars⟩ := List.exists_cons_of_ne_nil (mt String.toList_eq_nil_iff.1 hbuild)
      rw [if_neg (by simpa using hbuild), String.toList_append, hchars]
      rfl
  rw [text, String.toList_append, String.toList_append, String.toList_append, hpreText, hbuildText]
  have hpoint : (toString ".").toList = ['.'] := rfl
  cases v.revision with
  | none => simp [revisionText, hpoint]
  | some r => simp [revisionText, revisionMark, hpoint]

/-- The characters of a version without its revision. -/
def isPublishedChar (c : Char) : Bool := isTagChar c || c = '+'

theorem of_isPublishedChar (h : isPublishedChar c = true) :
    isBlank c = false ∧ c ≠ '@' ∧ c ≠ '>' := by
  have hcode : (48 ≤ c.toNat ∧ c.toNat ≤ 57) ∨ (97 ≤ c.toNat ∧ c.toNat ≤ 122) ∨
      (65 ≤ c.toNat ∧ c.toNat ≤ 90) ∨ c.toNat = 45 ∨ c.toNat = 46 ∨ c.toNat = 43 := by
    simp only [isPublishedChar, isTagChar, isAsciiDigit, isAsciiLetter, Bool.or_eq_true,
      Bool.and_eq_true, decide_eq_true_eq, Char.le_def, UInt32.le_iff_toNat_le] at h
    rcases h with (((h | h | h) | rfl) | rfl) | rfl
    · exact .inl h
    · exact .inr (.inl h)
    · exact .inr (.inr (.inl h))
    · exact .inr (.inr (.inr (.inl rfl)))
    · exact .inr (.inr (.inr (.inr (.inl rfl))))
    · exact .inr (.inr (.inr (.inr (.inr rfl))))
  refine ⟨?_, ?_, ?_⟩
  · simp only [isBlank, isWhiteSpace, Bool.or_eq_false_iff, Bool.and_eq_false_iff,
      decide_eq_false_iff_not, beq_eq_false_iff_ne]
    omega
  · rintro rfl
    revert hcode
    decide
  · rintro rfl
    revert hcode
    decide

theorem tag?_tagText (htag : ∀ c ∈ tag, isTagChar c = true)
    (hrest : ∀ c, rest.head? = some c → isTagChar c = false ∧ c ≠ mark) :
    tag? mark (tagText mark tag ++ rest) = some (tag, rest) := by
  cases tag with
  | nil => exact tag?_of_head fun c hc => (hrest c hc).2
  | cons c tag => exact tag?_mark htag (List.cons_ne_nil c tag) fun c hc => (hrest c hc).1

theorem published?_digits {major minor patch : Nat} {build : List Char}
    (hpre : ∀ c ∈ tag, isTagChar c = true) (hbuild : ∀ c ∈ build, isTagChar c = true) :
    published? (Nat.toDigits 10 major ++ '.' :: (Nat.toDigits 10 minor ++
        '.' :: (Nat.toDigits 10 patch ++ (tagText '-' tag ++ tagText '+' build)))) =
      some { major, minor, patch, pre := identifiers tag, build := String.ofList build } := by
  have hpoint : ∀ cs c, ('.' :: cs).head? = some c → isDecimalDigit c = false := by
    intro cs c hc
    cases hc
    rfl
  have hplus : ∀ c, (tagText '+' build).head? = some c → isTagChar c = false ∧ c ≠ '-' := by
    intro c hc
    cases build with
    | nil => cases hc
    | cons d ds =>
      cases hc
      decide
  have hmark : ∀ c, (tagText '-' tag ++ tagText '+' build).head? = some c →
      isDecimalDigit c = false := by
    intro c hc
    cases tag with
    | nil =>
      cases build with
      | nil => cases hc
      | cons d ds =>
        cases hc
        decide
    | cons d ds =>
      cases hc
      decide
  have htags : tag? '+' (tagText '+' build) = some (build, []) := by
    have hnone : ∀ c, ([] : List Char).head? = some c → isTagChar c = false ∧ c ≠ '+' :=
      fun c hc => by cases hc
    simpa using tag?_tagText hbuild hnone
  simp only [published?, number?_toDigits (hpoint _), number?_toDigits hmark, Option.bind_eq_bind,
    Option.bind_some, dropStart?, if_true, tag?_tagText hpre hplus, htags, List.isEmpty_nil]

/-- A version without revision is written with characters of its own. -/
theorem isPublishedChar_of_mem_text {v : Version} (hv : v.Readable) (hrevision : v.revision = none)
    (hc : c ∈ v.text.toList) : isPublishedChar c = true := by
  obtain ⟨tag, hpre, htag⟩ := hv.pre
  have hdigit : ∀ n, c ∈ Nat.toDigits 10 n → isPublishedChar c = true := by
    intro n hmem
    have hdigit :=
      Char.isDigit_iff_toNat.1 (Nat.isDigit_of_mem_toDigits (by decide) (by decide) hmem)
    simp only [isPublishedChar, isTagChar, isAsciiDigit, Bool.or_eq_true, Bool.and_eq_true,
      decide_eq_true_eq, Char.le_def, UInt32.le_iff_toNat_le]
    exact .inl (.inl (.inl (.inl hdigit)))
  have hmarked : ∀ mark tag, isPublishedChar mark = true → (∀ c ∈ tag, isTagChar c = true) →
      c ∈ tagText mark tag → isPublishedChar c = true := by
    intro mark tag hmark htag hmem
    cases tag with
    | nil => cases hmem
    | cons d ds =>
      rcases List.mem_cons.1 hmem with rfl | hmem
      · exact hmark
      · rw [isPublishedChar, htag c hmem]
        rfl
  rw [toList_text hpre, hrevision] at hc
  simp only [revisionText, List.append_nil, List.mem_append, List.mem_cons] at hc
  rcases hc with h | rfl | h | rfl | h | h | h
  · exact hdigit _ h
  · decide
  · exact hdigit _ h
  · decide
  · exact hdigit _ h
  · exact hmarked '-' tag (by decide) htag h
  · exact hmarked '+' _ (by decide) hv.build h

theorem toList_text_eq {v : Version} (hv : v.Readable) :
    v.text.toList = v.published.text.toList ++ revisionText v.revision := by
  obtain ⟨tag, hpre, _⟩ := hv.pre
  have hpublished : v.published.pre = identifiers tag := hpre
  rw [toList_text hpre, toList_text hpublished]
  simp [published, revisionText]

theorem Readable.published {v : Version} (hv : v.Readable) : v.published.Readable :=
  ⟨hv.pre, hv.build, fun _ h => by cases h⟩

theorem published?_text {v : Version} (hv : v.Readable) :
    published? v.published.text.toList = some v.published := by
  obtain ⟨tag, hpre, htag⟩ := hv.pre
  have hpublished : v.published.pre = identifiers tag := hpre
  rw [toList_text hpublished, Version.published, revisionText, List.append_nil,
    published?_digits htag hv.build, String.ofList_toList, ← hpre]

theorem text_ne_nil {v : Version} (hv : v.Readable) : v.text.toList ≠ [] := by
  obtain ⟨tag, hpre, _⟩ := hv.pre
  rw [toList_text hpre]
  simp

theorem head_text {v : Version} (hv : v.Readable) (hc : v.text.toList.head? = some c) :
    isPublishedChar c = true := by
  rw [toList_text_eq hv, List.head?_append_of_ne_nil _ (text_ne_nil hv.published)] at hc
  exact isPublishedChar_of_mem_text hv.published rfl (List.mem_of_head? hc)

theorem isBlank_getLast_text {v : Version} (hv : v.Readable)
    (hc : v.text.toList.getLast? = some c) : isBlank c = false := by
  rw [toList_text_eq hv] at hc
  cases hrevision : v.revision with
  | none =>
    rw [hrevision, revisionText, List.append_nil] at hc
    have hmem := isPublishedChar_of_mem_text hv.published rfl (List.mem_of_getLast? hc)
    exact (of_isPublishedChar hmem).1
  | some r =>
    obtain ⟨hne, hlast⟩ := hv.revision r hrevision
    have hchars : r.toList ≠ [] := mt String.toList_eq_nil_iff.1 hne
    rw [hrevision, revisionText, ← List.append_assoc,
      List.getLast?_append_of_ne_nil _ hchars] at hc
    exact hlast c hc

/-- A version is read from its own text, and blanks around it do not count. -/
theorem parse_of_blanks {v : Version} {text : String} (hv : v.Readable)
    (htext : text.toList = front ++ v.text.toList ++ back)
    (hfront : ∀ c ∈ front, isBlank c = true) (hback : ∀ c ∈ back, isBlank c = true) :
    parse text = .ok v := by
  have hraw : stripped text.toList = v.published.text.toList ++ revisionText v.revision := by
    rw [← toList_text_eq hv, htext]
    exact trim_append hfront hback
      (fun c hc => (of_isPublishedChar (head_text hv hc)).1)
      (fun c hc => isBlank_getLast_text hv hc) (text_ne_nil hv)
  have hpublished : ∀ c ∈ v.published.text.toList, isPublishedChar c = true :=
    fun c hc => isPublishedChar_of_mem_text hv.published rfl hc
  have hat : ¬['@'] <:+: v.published.text.toList := fun hin =>
    (of_isPublishedChar (hpublished '@' (hin.subset (List.mem_singleton.2 rfl)))).2.1 rfl
  rw [parse, hraw]
  cases hrevision : v.revision with
  | none =>
    rw [revisionText, List.append_nil, cut?_eq_none_iff.2 hat]
    dsimp only
    rw [published?_text hv, Version.published, ← hrevision]
  | some r =>
    obtain ⟨hne, hlast⟩ := hv.revision r hrevision
    obtain ⟨c, cs, hchars⟩ := List.exists_cons_of_ne_nil (mt String.toList_eq_nil_iff.1 hne)
    have hcut : cut? ['@'] (v.published.text.toList ++ revisionText (some r)) =
        some (v.published.text.toList, revisionMark ++ r.toList) := by
      rw [revisionText, List.cons_append, List.append_cons]
      exact cut?_append (by simpa using hat) _
    have hfrontStripped : stripped v.published.text.toList = v.published.text.toList :=
      trim_eq_self (fun c hc => (of_isPublishedChar (head_text hv.published hc)).1)
        fun c hc => isBlank_getLast_text hv.published hc
    have hbackStripped : stripped (revisionMark ++ r.toList) = revisionMark ++ r.toList := by
      apply trim_eq_self
      · intro d hd
        cases hd
        decide
      · intro d hd
        rw [List.getLast?_append_of_ne_nil _ (hchars ▸ List.cons_ne_nil c cs)] at hd
        exact hlast d hd
    rw [hcut]
    dsimp only
    rw [hbackStripped, dropStart?_append, hchars, hfrontStripped, published?_text hv]
    dsimp only
    rw [← hchars, String.ofList_toList, ← hrevision]
    rfl

theorem isTagChar_of_tag? (h : tag? mark cs = some (tag, rest)) :
    ∀ c ∈ tag, isTagChar c = true := by
  unfold tag? at h
  split at h
  · cases h
    exact fun c hc => absurd hc List.not_mem_nil
  · split at h
    · split at h
      · cases h
      · cases h
        exact fun c hc => List.all_eq_true.1 List.all_takeWhile c hc
    · cases h
      exact fun c hc => absurd hc List.not_mem_nil

theorem readable_of_published? {v : Version} (h : published? cs = some v) :
    v.Readable ∧ v.revision = none := by
  simp only [published?, Option.bind_eq_bind, Option.bind_eq_some_iff] at h
  obtain ⟨_, _, _, _, _, _, _, _, _, _, ⟨pre, afterPre⟩, hpre, ⟨build, rest⟩, hbuild, h⟩ := h
  split at h
  · cases h
    refine ⟨⟨⟨pre, rfl, isTagChar_of_tag? hpre⟩, ?_, fun _ h => by cases h⟩, rfl⟩
    rw [String.toList_ofList]
    exact isTagChar_of_tag? hbuild
  · cases h

theorem parse_eq_ok {text : String} {v : Version} (h : parse text = .ok v) :
    (cut? ['@'] (stripped text.toList) = none ∧ published? (stripped text.toList) = some v) ∨
      ∃ (front back : List Char) (c : Char) (cs : List Char) (w : Version),
      cut? ['@'] (stripped text.toList) = some (front, back) ∧
        stripped back = revisionMark ++ c :: cs ∧ published? (stripped front) = some w ∧
          v = { w with revision := some (String.ofList (c :: cs)) } := by
  unfold parse at h
  dsimp only at h
  split at h
  · next hcut =>
    split at h
    · next w hw =>
      cases h
      exact .inl ⟨hcut, hw⟩
    · cases h
  · next front back hcut =>
    split at h
    · next c cs hmark =>
      split at h
      · next w hw =>
        cases h
        exact .inr ⟨front, back, c, cs, w, hcut, eq_append_of_dropStart? hmark, hw, rfl⟩
      · cases h
    · cases h

/-- What was read is written so that it reads back. -/
theorem readable_of_parse {text : String} {v : Version} (h : parse text = .ok v) : v.Readable := by
  rcases parse_eq_ok h with ⟨_, hv⟩ | ⟨_, back, c, cs, w, _, hback, hpublished, rfl⟩
  · exact (readable_of_published? hv).1
  · have hw : w.Readable := (readable_of_published? hpublished).1
    refine ⟨hw.pre, hw.build, fun r hr => ?_⟩
    cases hr
    refine ⟨by simp, fun d hd => ?_⟩
    rw [String.toList_ofList] at hd
    have hlast : (trim isBlank back).getLast? = some d := by
      change (stripped back).getLast? = some d
      rw [hback, List.getLast?_append_of_ne_nil _ (List.cons_ne_nil c cs)]
      exact hd
    exact of_getLast?_trim hlast

theorem revision_infix_of_parse {text r : String} {v : Version} (h : parse text = .ok v)
    (hr : v.revision = some r) : r.toList <:+: text.toList := by
  rcases parse_eq_ok h with ⟨_, hv⟩ | ⟨front, back, c, cs, w, hcut, hback, _, rfl⟩
  · rw [(readable_of_published? hv).2] at hr
    cases hr
  · cases hr
    rw [String.toList_ofList]
    have hrevision : c :: cs <:+: stripped back := by
      rw [hback]
      exact (List.suffix_append _ _).isInfix
    have hafter : back <:+: stripped text.toList := by
      rw [eq_append_of_cut? hcut]
      exact (List.suffix_append _ _).isInfix
    exact hrevision.trans (infix_of_trim.trans (hafter.trans infix_of_trim))

end Version

end Vetting
