import Vetting.Proofs.VersionOrder

/-! Precedence as Semantic Versioning 2.0.0 defines it in section 11. The order of versions is that
precedence where identifiers are spelled as the standard asks, and a version with a revision comes
right behind the version it is based on. -/

namespace Vetting

namespace Identifier

variable {i j : String} {m n : Nat} {p q : List String}

/-- An identifier that is no number. -/
def IsWord (i : String) : Prop := ∃ c ∈ i.toList, c.isDigit = false

instance : DecidablePred IsWord := fun i =>
  decidable_of_iff (i.toList.any (fun c => !c.isDigit) = true) (by simp [IsWord])

/-- An identifier that is not empty and, if it is a number, has no needless zeros in front. -/
structure Standard (i : String) : Prop where
  ne_empty : i ≠ ""
  head : IsWord i ∨ i = "0" ∨ i.toList.head? ≠ some '0'

instance : DecidablePred Standard := fun i =>
  decidable_of_iff (i ≠ "" ∧ (IsWord i ∨ i = "0" ∨ i.toList.head? ≠ some '0'))
    ⟨fun h => ⟨h.1, h.2⟩, fun h => ⟨h.ne_empty, h.head⟩⟩

/-- Numbers by value and in front of words, and words by the codes of their characters. -/
inductive Before : String → String → Prop
  | numbers {m n : Nat} (h : m < n) : Before (toString m) (toString n)
  | number_word {m : Nat} {j : String} (hj : IsWord j) : Before (toString m) j
  | words {i j : String} (hi : IsWord i) (hj : IsWord j) (h : i < j) : Before i j

theorem identifierNumber?_toString (n : Nat) : identifierNumber? (toString n) = some n :=
  padded_zero n ▸ identifierNumber?_padded 0 n

theorem identifierNumber?_of_isWord (h : IsWord i) : identifierNumber? i = none := by
  obtain ⟨c, hc, hdigit⟩ := h
  cases hnumber : identifierNumber? i with
  | none => rfl
  | some n =>
    obtain ⟨zeros, rfl⟩ := identifierNumber?_eq_some_iff.1 hnumber
    rw [isDigit_of_mem_padded hc] at hdigit
    cases hdigit

theorem isWord_of_identifierNumber? (hne : i ≠ "") (h : identifierNumber? i = none) :
    IsWord i := by
  unfold identifierNumber? at h
  split at h
  · next hnil => exact absurd (String.toList_eq_nil_iff.1 hnil) hne
  · next cs hcs =>
    split at h
    · cases h
    · next hall =>
      simpa [IsWord, ← isAsciiDigit_eq] using hall

/-- A number of the standard is written without zeros in front. -/
theorem Standard.eq_toString (hi : Standard i) (h : identifierNumber? i = some n) :
    i = toString n := by
  obtain ⟨zeros, rfl⟩ := identifierNumber?_eq_some_iff.1 h
  cases zeros with
  | zero => exact padded_zero n
  | succ zeros =>
    rcases hi.head with hword | hzero | hhead
    · rw [identifierNumber?_of_isWord hword] at h
      cases h
    · have hlength := congrArg (fun i => i.toList.length) hzero
      have hpos : 0 < (Nat.toDigits 10 n).length := Nat.length_toDigits_pos
      simp [toList_padded] at hlength
      omega
    · exact absurd (by rw [toList_padded]; rfl) hhead

theorem compareIdentifiers_eq_lt_iff (hi : Standard i) (hj : Standard j) :
    compareIdentifiers i j = .lt ↔ Before i j := by
  constructor
  · intro h
    cases hm : identifierNumber? i with
    | some m =>
      rw [hi.eq_toString hm]
      cases hn : identifierNumber? j with
      | some n =>
        rw [compareIdentifiers_of_numbers hm hn, compare_lt_iff_lt] at h
        rw [hj.eq_toString hn]
        exact .numbers h
      | none => exact .number_word (isWord_of_identifierNumber? hj.ne_empty hn)
    | none =>
      cases hn : identifierNumber? j with
      | some n =>
        rw [@Std.OrientedCmp.eq_swap _ compareIdentifiers _ i j,
          compareIdentifiers_of_number_word hn hm] at h
        cases h
      | none =>
        rw [compareIdentifiers_of_words hm hn, compare_lt_iff_lt] at h
        exact .words (isWord_of_identifierNumber? hi.ne_empty hm)
          (isWord_of_identifierNumber? hj.ne_empty hn) h
  · intro h
    cases h with
    | numbers h =>
      rw [compareIdentifiers_of_numbers (identifierNumber?_toString _)
        (identifierNumber?_toString _), compare_lt_iff_lt]
      exact h
    | number_word hword =>
      exact compareIdentifiers_of_number_word (identifierNumber?_toString _)
        (identifierNumber?_of_isWord hword)
    | words hi hj h =>
      rw [compareIdentifiers_of_words (identifierNumber?_of_isWord hi)
        (identifierNumber?_of_isWord hj), compare_lt_iff_lt]
      exact h

/-- Identifiers of the standard are alike only if they are the same. -/
theorem Alike.eq (h : Alike i j) (hi : Standard i) (hj : Standard j) : i = j := by
  cases h with
  | same => rfl
  | numbers zeros more n =>
    exact (hi.eq_toString (identifierNumber?_padded zeros n)).trans
      (hj.eq_toString (identifierNumber?_padded more n)).symm

theorem eq_of_forall₂_alike (h : List.Forall₂ Alike p q) (hp : ∀ i ∈ p, Standard i)
    (hq : ∀ j ∈ q, Standard j) : p = q := by
  induction h with
  | nil => rfl
  | cons hij _ ih =>
    obtain ⟨hi, hp⟩ := List.forall_mem_cons.1 hp
    obtain ⟨hj, hq⟩ := List.forall_mem_cons.1 hq
    rw [hij.eq hi hj, ih hp hq]

/-- Lists go by their first difference, and a list comes before what continues it. -/
theorem compareLex_eq_lt_iff (hp : ∀ i ∈ p, Standard i) (hq : ∀ j ∈ q, Standard j) :
    List.compareLex compareIdentifiers p q = .lt ↔ List.Lex Before p q := by
  induction p generalizing q with
  | nil =>
    cases q with
    | nil => exact iff_of_false (by decide) List.not_lex_nil
    | cons j q => exact iff_of_true List.compareLex_nil_cons .nil
  | cons i p ih =>
    cases q with
    | nil => simp [List.compareLex_cons_nil]
    | cons j q =>
      obtain ⟨hi, hp⟩ := List.forall_mem_cons.1 hp
      obtain ⟨hj, hq⟩ := List.forall_mem_cons.1 hq
      rw [List.compareLex_cons_cons, Ordering.then_eq_lt, compareIdentifiers_eq_lt_iff hi hj,
        compareIdentifiers_eq_eq_iff, ih hp hq]
      constructor
      · rintro (h | ⟨halike, h⟩)
        · exact .rel h
        · exact halike.eq hi hj ▸ .cons h
      · intro h
        cases h with
        | rel h => exact .inl h
        | cons h => exact .inr ⟨.same i, h⟩

/-- A pre-release comes before what is none, and pre-releases go by their identifiers. -/
theorem comparePre_eq_lt_iff (hp : ∀ i ∈ p, Standard i) (hq : ∀ j ∈ q, Standard j) :
    comparePre p q = .lt ↔ p ≠ [] ∧ (q = [] ∨ List.Lex Before p q) := by
  rw [comparePre_eq, Ordering.then_eq_lt, compareLex_eq_lt_iff hp hq]
  cases p with
  | nil =>
    cases q with
    | nil => exact iff_of_false (by simp) (by simp)
    | cons j q => exact iff_of_false (by simp) (by simp)
  | cons i p =>
    cases q with
    | nil => exact iff_of_true (.inl rfl) (by simp)
    | cons j q => simp

end Identifier

namespace Release

variable {a b : Release}

/-- Whether two releases have the same three numbers. -/
def SameTriple (a b : Release) : Prop := a.major = b.major ∧ a.minor = b.minor ∧ a.patch = b.patch

/-- The precedence of the standard: the three numbers first, then a pre-release before its release,
then the identifiers from left to right. -/
inductive Before (a b : Release) : Prop
  | major (h : a.major < b.major)
  | minor (hmajor : a.major = b.major) (h : a.minor < b.minor)
  | patch (hmajor : a.major = b.major) (hminor : a.minor = b.minor) (h : a.patch < b.patch)
  | preRelease (htriple : SameTriple a b) (ha : a.pre ≠ []) (hb : b.pre = [])
  | identifiers (htriple : SameTriple a b) (ha : a.pre ≠ [])
      (h : List.Lex Identifier.Before a.pre b.pre)

/-- A release without revision whose identifiers are spelled as the standard asks. -/
structure Standard (r : Release) : Prop where
  pre : ∀ i ∈ r.pre, Identifier.Standard i
  revision : r.revision = none

/-- What decides the order of two releases: the first of the numbers that differs, then the
pre-release, then the revision. -/
theorem precedes_iff_cases : a.precedes b = true ↔
    a.major < b.major ∨ a.major = b.major ∧ (a.minor < b.minor ∨ a.minor = b.minor ∧
      (a.patch < b.patch ∨ a.patch = b.patch ∧ (comparePre a.pre b.pre = .lt ∨
        comparePre a.pre b.pre = .eq ∧ Ord.compare a.revision b.revision = .lt))) := by
  simp only [precedes_iff, compare, Ordering.then_eq_lt, compare_lt_iff_lt, compare_eq_iff_eq]

/-- Between releases without revision the pre-release decides last. -/
theorem precedes_iff_of_revision (ha : a.revision = none) (hb : b.revision = none) :
    a.precedes b = true ↔
      a.major < b.major ∨ a.major = b.major ∧ (a.minor < b.minor ∨ a.minor = b.minor ∧
        (a.patch < b.patch ∨ a.patch = b.patch ∧ comparePre a.pre b.pre = .lt)) := by
  have hlast : ¬(comparePre a.pre b.pre = .eq ∧ Ord.compare a.revision b.revision = .lt) := by
    rw [ha, hb]
    exact fun h => absurd h.2 (by decide)
  rw [precedes_iff_cases, or_iff_left hlast]

theorem precedes_iff_of_standard (ha : a.Standard) (hb : b.Standard) :
    a.precedes b = true ↔ a.Before b := by
  rw [precedes_iff_of_revision ha.revision hb.revision,
    Identifier.comparePre_eq_lt_iff ha.pre hb.pre]
  constructor
  · rintro (h | ⟨hmajor, h | ⟨hminor, h | ⟨hpatch, hne, h | h⟩⟩⟩)
    · exact .major h
    · exact .minor hmajor h
    · exact .patch hmajor hminor h
    · exact .preRelease ⟨hmajor, hminor, hpatch⟩ hne h
    · exact .identifiers ⟨hmajor, hminor, hpatch⟩ hne h
  · intro h
    cases h with
    | major h => exact .inl h
    | minor hmajor h => exact .inr ⟨hmajor, .inl h⟩
    | patch hmajor hminor h => exact .inr ⟨hmajor, .inr ⟨hminor, .inl h⟩⟩
    | preRelease htriple hne h =>
      exact .inr ⟨htriple.1, .inr ⟨htriple.2.1, .inr ⟨htriple.2.2, hne, .inl h⟩⟩⟩
    | identifiers htriple hne h =>
      exact .inr ⟨htriple.1, .inr ⟨htriple.2.1, .inr ⟨htriple.2.2, hne, .inr h⟩⟩⟩

theorem eq_of_alike (h : a.Alike b) (ha : a.Standard) (hb : b.Standard) : a = b := by
  have hpre : a.pre = b.pre := Identifier.eq_of_forall₂_alike h.pre ha.pre hb.pre
  obtain ⟨hmajor, hminor, hpatch, _, hrevision⟩ := h
  cases a
  cases b
  simp_all

theorem precedes_revision (ha : a.revision = none) (r : String) :
    a.precedes { a with revision := some r } = true := by
  have hpre : comparePre a.pre a.pre = .eq := Std.ReflCmp.compare_self
  rw [precedes_iff_cases]
  refine .inr ⟨rfl, .inr ⟨rfl, .inr ⟨rfl, .inr ⟨hpre, ?_⟩⟩⟩⟩
  rw [ha]
  rfl

theorem revision_precedes (ha : a.revision = none) (hb : b.revision = none)
    (h : a.precedes b = true) (r : String) :
    ({ a with revision := some r } : Release).precedes b = true := by
  rw [precedes_iff_of_revision ha hb] at h
  rw [precedes_iff_cases]
  exact h.imp_right (And.imp_right (Or.imp_right (And.imp_right (Or.imp_right
    (And.imp_right .inl)))))

end Release

/-- The order of versions without revision whose identifiers are spelled as the standard asks is the
precedence of the standard, whatever their build metadata, and no two different ones are on a par.
With a revision a version comes behind itself and in front of all that are behind it. -/
theorem Version.precedes_iff_before {a b : Version} (ha : a.toRelease.Standard)
    (hb : b.toRelease.Standard) :
    (a.toRelease.precedes b.toRelease = true ↔ a.toRelease.Before b.toRelease) ∧
      ((¬a.toRelease.Before b.toRelease ∧ ¬b.toRelease.Before a.toRelease) ↔
        a.toRelease = b.toRelease) ∧
      ∀ r, a.toRelease.precedes { a.toRelease with revision := some r } = true ∧
        (a.toRelease.precedes b.toRelease = true →
          ({ a.toRelease with revision := some r } : Release).precedes b.toRelease = true) := by
  refine ⟨Release.precedes_iff_of_standard ha hb, ?_, fun r =>
    ⟨Release.precedes_revision ha.revision r, fun h =>
      Release.revision_precedes ha.revision hb.revision h r⟩⟩
  rw [← Release.precedes_iff_of_standard ha hb, ← Release.precedes_iff_of_standard hb ha]
  constructor
  · rintro ⟨hab, hba⟩
    rcases Release.exactlyOne_iff.2 fun h => Release.eq_of_alike h ha hb with h | h | h
    · exact absurd h.1 hab
    · exact h.2.1
    · exact absurd h.2.2 hba
  · intro h
    rw [h, Release.not_precedes_self]
    decide

theorem Version.precedes_iff_before_beta :
    let a : Version := { major := 1, minor := 0, patch := 0, pre := ["beta", "2"], build := "x" }
    let b : Version := { major := 1, minor := 0, patch := 0, pre := ["beta", "11"] }
    parse "1.0.0-beta.2+x" = .ok a ∧ parse "1.0.0-beta.11" = .ok b ∧
      a.toRelease.Standard ∧ b.toRelease.Standard ∧ a.toRelease.Before b.toRelease ∧
        ({ a.toRelease with revision := some "z" } : Release).precedes b.toRelease = true := by
  intro a b
  have hbeta : ∀ i, Identifier.Standard i → ∀ j ∈ ["beta", i], Identifier.Standard j := by
    intro i hi
    exact List.forall_mem_cons.2 ⟨by decide +kernel, List.forall_mem_singleton.2 hi⟩
  have ha : a.toRelease.Standard := ⟨hbeta "2" (by decide +kernel), rfl⟩
  have hb : b.toRelease.Standard := ⟨hbeta "11" (by decide +kernel), rfl⟩
  have hab : a.toRelease.precedes b.toRelease = true := by decide +kernel
  obtain ⟨hiff, _, hrevision⟩ := precedes_iff_before ha hb
  exact ⟨by decide +kernel, by decide +kernel, ha, hb, hiff.1 hab, (hrevision "z").2 hab⟩

end Vetting
