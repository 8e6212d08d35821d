import Vetting.Proofs.CanonicalOrder
import Vetting.Proofs.SortedMembers
import Vetting.Proofs.VersionText

/-! The order of versions. Of two different versions exactly one precedes the other, unless they are
alike up to zeros in front of numbers, and lists without such a pair are sorted in one way. -/

namespace Vetting

open Text

/-- One of three holds and the others do not. -/
def ExactlyOne (p q r : Prop) : Prop := p ∧ ¬q ∧ ¬r ∨ ¬p ∧ q ∧ ¬r ∨ ¬p ∧ ¬q ∧ r

/-- A list that is its own reversal and repeats nothing has one element at most. -/
theorem length_le_one_of_reverse_eq {α : Type} {l : List α} (hl : l.Nodup) (h : l.reverse = l) :
    l.length ≤ 1 := by
  cases l with
  | nil => exact Nat.zero_le 1
  | cons a rest =>
    obtain ⟨ha, _⟩ := List.nodup_cons.1 hl
    cases hrest : rest.reverse with
    | nil =>
      rw [List.reverse_eq_nil_iff.1 hrest]
      exact Nat.le_refl 1
    | cons b bs =>
      -- The list ends with what it starts with, so its first element stands in the rest as well.
      rw [List.reverse_cons, hrest, List.cons_append] at h
      obtain ⟨rfl, _⟩ := List.cons.inj h
      exact absurd (List.mem_reverse.1 (hrest ▸ List.mem_cons_self)) ha

namespace Identifier

variable {i j : String} {m n zeros : Nat} {c : Char} {cs : List Char} {p q : List String}

/-- A number in decimal with zeros in front of it. -/
def padded (zeros n : Nat) : String :=
  String.ofList (List.replicate zeros '0' ++ Nat.toDigits 10 n)

/-- Identifiers that are the same, or the same number with zeros in front of it. -/
inductive Alike : String → String → Prop
  | same (i : String) : Alike i i
  | numbers (zeros more n : Nat) : Alike (padded zeros n) (padded more n)

theorem toList_padded (zeros n : Nat) :
    (padded zeros n).toList = List.replicate zeros '0' ++ Nat.toDigits 10 n :=
  String.toList_ofList

theorem padded_zero (n : Nat) : padded 0 n = toString n := Nat.toString_eq_ofList_toDigits.symm

theorem isAsciiDigit_eq (c : Char) : isAsciiDigit c = c.isDigit := rfl

theorem isDigit_of_mem_padded (h : c ∈ (padded zeros n).toList) : c.isDigit = true := by
  rw [toList_padded, List.mem_append] at h
  rcases h with h | h
  · rw [List.eq_of_mem_replicate h]
    rfl
  · exact Nat.isDigit_of_mem_toDigits (by decide) (by decide) h

theorem number_padded (zeros n : Nat) : number (padded zeros n).toList = n := by
  rw [number_of_isDigit fun c hc => isDigit_of_mem_padded hc, toList_padded,
    Nat.ofDigitChars_append, Nat.ofDigitChars_replicate_zero, Nat.mul_zero,
    Nat.ofDigitChars_toDigits (by decide) (by decide)]

theorem value_lt_of_isDigit (h : c.isDigit = true) : (digitValue? c).getD 0 < 10 := by
  have hrange : 48 ≤ c.toNat ∧ c.toNat ≤ 57 := Char.isDigit_iff_toNat.1 h
  rw [digitValue?_of_isDigit h, Option.getD_some]
  omega

theorem toDigits_of_isDigit (h : c.isDigit = true) :
    Nat.toDigits 10 ((digitValue? c).getD 0) = [c] := by
  have hrange : 48 ≤ c.toNat ∧ c.toNat ≤ 57 := Char.isDigit_iff_toNat.1 h
  rw [Nat.toDigits_of_lt_base (value_lt_of_isDigit h)]
  congr 1
  apply Char.toNat_inj.1
  rw [Nat.toNat_digitChar_of_lt_ten (value_lt_of_isDigit h), digitValue?_of_isDigit h,
    Option.getD_some]
  omega

/-- A row of digits is the number that it spells, with zeros in front of it. -/
theorem exists_zeros_of_digits (hne : cs ≠ []) (h : ∀ c ∈ cs, c.isDigit = true) :
    ∃ zeros, cs = List.replicate zeros '0' ++ Nat.toDigits 10 (number cs) := by
  -- A number is written on at its end: behind zeros alone the next digit starts it anew.
  induction cs using List.reverseRecOn with
  | nil => exact absurd rfl hne
  | append_singleton ds c ih =>
    have hlast : c.isDigit = true := h c (List.mem_append_right ds List.mem_cons_self)
    have hvalue : number (ds ++ [c]) = 10 * number ds + (digitValue? c).getD 0 := by
      simp [number]
    have hdigit : Nat.toDigits 10 ((digitValue? c).getD 0) = [c] := toDigits_of_isDigit hlast
    rcases eq_or_ne ds [] with rfl | hds
    · have hfirst : number ([] ++ [c]) = (digitValue? c).getD 0 := hvalue.trans (Nat.zero_add _)
      exact ⟨0, by rw [hfirst, hdigit]; rfl⟩
    · obtain ⟨zeros, hzeros⟩ := ih hds fun d hd => h d (List.mem_append_left [c] hd)
      rcases Nat.eq_zero_or_pos (number ds) with hzero | hpos
      · refine ⟨zeros + 1, ?_⟩
        rw [hzero, Nat.toDigits_zero, ← List.replicate_succ'] at hzeros
        rw [hvalue, hzero, Nat.mul_zero, Nat.zero_add, hdigit, ← hzeros]
      · refine ⟨zeros, ?_⟩
        rw [hvalue,
          ← Nat.toDigits_append_toDigits (by decide) hpos (value_lt_of_isDigit hlast), hdigit,
          ← List.append_assoc, ← hzeros]

/-- An identifier is read as a number where it is one, with or without zeros in front of it. -/
theorem identifierNumber?_eq_some_iff :
    identifierNumber? i = some n ↔ ∃ zeros, i = padded zeros n := by
  unfold identifierNumber?
  constructor
  · intro h
    split at h
    · cases h
    · next cs hne =>
      split at h
      · next hall =>
        cases h
        obtain ⟨zeros, hzeros⟩ := exists_zeros_of_digits (fun hnil => hne hnil)
          (List.all_eq_true.1 hall)
        refine ⟨zeros, String.toList_inj.1 ?_⟩
        rw [toList_padded, ← hzeros]
      · cases h
  · rintro ⟨zeros, rfl⟩
    have hall : (padded zeros n).toList.all isAsciiDigit = true :=
      List.all_eq_true.2 fun c hc => isDigit_of_mem_padded hc
    split
    · next hnil =>
      rw [toList_padded] at hnil
      exact absurd (List.append_eq_nil_iff.1 hnil).2 Nat.toDigits_ne_nil
    · rw [if_pos hall, number_padded]

theorem identifierNumber?_padded (zeros n : Nat) : identifierNumber? (padded zeros n) = some n :=
  identifierNumber?_eq_some_iff.2 ⟨zeros, rfl⟩

/-! Numbers go by value and come before words. -/

theorem compareIdentifiers_eq : compareIdentifiers i j =
    (compare (identifierNumber? i).isNone (identifierNumber? j).isNone).then
      ((compare ((identifierNumber? i).getD 0) ((identifierNumber? j).getD 0)).then
        (compare (if (identifierNumber? i).isSome then "" else i)
          (if (identifierNumber? j).isSome then "" else j))) := rfl

theorem compareIdentifiers_of_numbers (hi : identifierNumber? i = some m)
    (hj : identifierNumber? j = some n) : compareIdentifiers i j = compare m n := by
  rw [compareIdentifiers_eq, hi, hj]
  exact Ordering.then_eq

theorem compareIdentifiers_of_number_word (hi : identifierNumber? i = some m)
    (hj : identifierNumber? j = none) : compareIdentifiers i j = .lt := by
  rw [compareIdentifiers_eq, hi, hj]
  rfl

theorem compareIdentifiers_of_words (hi : identifierNumber? i = none)
    (hj : identifierNumber? j = none) : compareIdentifiers i j = compare i j := by
  rw [compareIdentifiers_eq, hi, hj]
  rfl

theorem compareIdentifiers_eq_eq_iff : compareIdentifiers i j = .eq ↔ Alike i j := by
  constructor
  · intro h
    cases hi : identifierNumber? i with
    | some m =>
      cases hj : identifierNumber? j with
      | some n =>
        rw [compareIdentifiers_of_numbers hi hj, compare_eq_iff_eq] at h
        obtain ⟨zeros, rfl⟩ := identifierNumber?_eq_some_iff.1 hi
        obtain ⟨more, rfl⟩ := identifierNumber?_eq_some_iff.1 hj
        exact h ▸ .numbers zeros more m
      | none =>
        rw [compareIdentifiers_of_number_word hi hj] at h
        cases h
    | none =>
      cases hj : identifierNumber? j with
      | some n =>
        rw [@Std.OrientedCmp.eq_swap _ compareIdentifiers _ i j,
          compareIdentifiers_of_number_word hj hi] at h
        cases h
      | none =>
        rw [compareIdentifiers_of_words hi hj, compare_eq_iff_eq] at h
        exact h ▸ .same i
  · intro h
    cases h with
    | same => exact Std.ReflCmp.compare_self
    | numbers zeros more n =>
      rw [compareIdentifiers_of_numbers (identifierNumber?_padded zeros n)
        (identifierNumber?_padded more n), compare_eq_iff_eq]

theorem compareLex_eq_eq_iff :
    List.compareLex compareIdentifiers p q = .eq ↔ List.Forall₂ Alike p q := by
  induction p generalizing q with
  | nil =>
    cases q with
    | nil => exact iff_of_true List.compareLex_nil_nil .nil
    | cons j q => simp [List.compareLex_nil_cons]
  | cons i p ih =>
    cases q with
    | nil => simp [List.compareLex_cons_nil]
    | cons j q =>
      rw [List.compareLex_cons_cons, Ordering.then_eq_eq, List.forall₂_cons,
        compareIdentifiers_eq_eq_iff, ih]

theorem comparePre_eq : comparePre p q =
    (compare p.isEmpty q.isEmpty).then (List.compareLex compareIdentifiers p q) := rfl

theorem comparePre_eq_eq_iff : comparePre p q = .eq ↔ List.Forall₂ Alike p q := by
  rw [comparePre_eq, Ordering.then_eq_eq, compareLex_eq_eq_iff, and_iff_right_iff_imp]
  intro h
  cases h with
  | nil => rfl
  | cons _ _ => rfl

end Identifier

namespace Release

variable {a b c : Release}

/-- Releases that are the same, or differ in the zeros in front of a number of the pre-release. -/
structure Alike (a b : Release) : Prop where
  major : a.major = b.major
  minor : a.minor = b.minor
  patch : a.patch = b.patch
  pre : List.Forall₂ Identifier.Alike a.pre b.pre
  revision : a.revision = b.revision

theorem compare_eq_eq_iff : compare a b = .eq ↔ a.Alike b := by
  simp only [compare, Ordering.then_eq_eq, Identifier.comparePre_eq_eq_iff, Std.compare_eq_iff_eq]
  constructor
  · rintro ⟨hmajor, hminor, hpatch, hpre, hrevision⟩
    exact ⟨hmajor, hminor, hpatch, hpre, hrevision⟩
  · rintro ⟨hmajor, hminor, hpatch, hpre, hrevision⟩
    exact ⟨hmajor, hminor, hpatch, hpre, hrevision⟩

instance : Decidable (a.Alike b) := decidable_of_iff _ compare_eq_eq_iff

/-- Two releases are in order unless they are alike without being the same. -/
theorem exactlyOne_iff :
    ExactlyOne (a.precedes b = true) (a = b) (b.precedes a = true) ↔ (a.Alike b → a = b) := by
  have hswap : compare b a = (compare a b).swap := Std.OrientedCmp.eq_swap
  have hne : compare a b ≠ .eq → a ≠ b := fun h hab => h (hab ▸ Std.ReflCmp.compare_self)
  rw [precedes_iff, precedes_iff, hswap, ← compare_eq_eq_iff]
  unfold ExactlyOne
  cases hab : compare a b with
  | lt => simp [hne (by simp [hab])]
  | eq => simp
  | gt => simp [hne (by simp [hab])]

end Release

namespace PackageKey

variable {a b c : PackageKey}

/-- Whether two keys name alike releases of one package. -/
def Alike (a b : PackageKey) : Prop := a.package = b.package ∧ a.release.Alike b.release

instance : Decidable (a.Alike b) := inferInstanceAs (Decidable (_ ∧ _))

theorem compare_eq_eq_iff : compare a b = .eq ↔ a.Alike b := by
  rw [compare, Ordering.then_eq_eq, Release.compare_eq_eq_iff, Std.compare_eq_iff_eq, Alike]

theorem Alike.refl (a : PackageKey) : a.Alike a := compare_eq_eq_iff.1 Std.ReflCmp.compare_self

theorem Alike.trans (hab : a.Alike b) (hbc : b.Alike c) : a.Alike c := by
  rw [← compare_eq_eq_iff] at *
  exact Std.TransCmp.eq_trans hab hbc

theorem Alike.symm (h : a.Alike b) : b.Alike a := by
  rw [← compare_eq_eq_iff] at *
  rw [@Std.OrientedCmp.eq_swap _ compare _ b a, h]
  rfl

end PackageKey

namespace PackageId

variable {a b : PackageId} {ids other : List PackageId}

theorem alike_of_not_precedes (hab : a.precedes b = false) (hba : b.precedes a = false) :
    a.key.Alike b.key := by
  rw [not_precedes_iff] at hab hba
  exact PackageKey.compare_eq_eq_iff.1 (Std.OrientedCmp.isLE_antisymm hba hab)

theorem not_precedes_of_alike (h : a.key.Alike b.key) : a.precedes b = false := by
  rw [← Bool.not_eq_true, precedes_iff, PackageKey.compare_eq_eq_iff.2 h]
  decide

theorem sort_eq_of_perm (hids : ids.Pairwise fun a b => ¬a.key.Alike b.key)
    (hperm : other.Perm ids) : sort other = sort ids := by
  have hsorted : (sort other).Perm (sort ids) :=
    ((sortBy_perm _ other).trans hperm).trans (sortBy_perm _ ids).symm
  refine hsorted.eq_of_pairwise (fun a b ha hb hba hab => ?_) (pairwise_sort other)
    (pairwise_sort ids)
  have ha' : a ∈ ids := hperm.mem_iff.1 (mem_sortBy.1 ha)
  have hb' : b ∈ ids := mem_sortBy.1 hb
  by_contra hne
  have : Std.Symm fun a b : PackageId => ¬a.key.Alike b.key := ⟨fun a b h hba => h hba.symm⟩
  exact hids.forall ha' hb' hne (alike_of_not_precedes hab hba)

/-- Sorting keeps packages that are alike in the order they came in, so a list and its reversal are
sorted differently if two of them are alike. -/
theorem not_alike_of_sort_reverse (hids : ids.Pairwise fun a b => a.key ≠ b.key)
    (h : sort ids.reverse = sort ids) : ids.Pairwise fun a b => ¬a.key.Alike b.key := by
  rw [List.pairwise_iff_forall_sublist]
  intro a b hsub halike
  -- What is alike to `a` comes out of sorting as it went in, so it would be its own reversal.
  let keep : PackageId → Bool := fun c => decide (c.key.Alike a.key)
  have hstable : ∀ l : List PackageId, (sort l).filter keep = l.filter keep := by
    refine fun l => filter_sortBy fun c _ d _ hc hd => not_precedes_of_alike ?_
    exact (of_decide_eq_true hd).trans (of_decide_eq_true hc).symm
  have hpair : [a, b].Sublist (ids.filter keep) := by
    have hkept : [a, b].filter keep = [a, b] := by simp [keep, halike.symm, PackageKey.Alike.refl]
    exact hkept ▸ hsub.filter keep
  have hsame : (ids.filter keep).reverse = ids.filter keep := by
    rw [← List.filter_reverse, ← hstable ids.reverse, h, hstable ids]
  have hnodup : (ids.filter keep).Nodup :=
    (hids.imp fun hkey h => hkey (congrArg key h)).filter keep
  have hshort : (ids.filter keep).length ≤ 1 := length_le_one_of_reverse_eq hnodup hsame
  have hlong : 2 ≤ (ids.filter keep).length := hpair.length_le
  omega

end PackageId

/-- Of two different releases exactly one precedes the other if they are not alike, and only then;
the order is transitive; and a list of different packages is sorted in one way, whatever order it
comes in, if no two of them are alike, and only then. -/
theorem Release.order_total_iff (a b c : Release) {ids : List PackageId}
    (hids : ids.Pairwise fun x y => x.key ≠ y.key) :
    (ExactlyOne (a.precedes b = true) (a = b) (b.precedes a = true) ↔ (a.Alike b → a = b)) ∧
      (a.precedes b = true → b.precedes c = true → a.precedes c = true) ∧
      ((∀ other, other.Perm ids → PackageId.sort other = PackageId.sort ids) ↔
        ids.Pairwise fun x y => ¬x.key.Alike y.key) := by
  refine ⟨exactlyOne_iff, precedes_trans, fun h => ?_,
    fun hapart _ hperm => PackageId.sort_eq_of_perm hapart hperm⟩
  exact PackageId.not_alike_of_sort_reverse hids (h ids.reverse (List.reverse_perm ids))

theorem Release.order_total_iff_zeros :
    let a : Version := { major := 1, minor := 0, patch := 0, pre := ["rc", "1"] }
    let b : Version := { major := 1, minor := 0, patch := 0, pre := ["rc", "01"] }
    let c : Version := { major := 1, minor := 0, patch := 0, pre := ["rc", "1", ""] }
    let d : Version := { major := 1, minor := 0, patch := 0 }
    let alike : List PackageId := [⟨"pad", a⟩, ⟨"pad", b⟩, ⟨"pad", c⟩]
    let apart : List PackageId := [⟨"pad", d⟩, ⟨"pad", c⟩, ⟨"pad", b⟩]
    Version.parse "1.0.0-rc.1" = .ok a ∧ Version.parse "1.0.0-rc.01" = .ok b ∧
      Version.parse "1.0.0-rc.1." = .ok c ∧ Version.parse "1.0.0" = .ok d ∧
      ¬ExactlyOne (a.toRelease.precedes b.toRelease = true) (a.toRelease = b.toRelease)
        (b.toRelease.precedes a.toRelease = true) ∧
      a.toRelease.precedes d.toRelease = true ∧
      (¬∀ other, other.Perm alike → PackageId.sort other = PackageId.sort alike) ∧
      ∀ other, other.Perm apart → PackageId.sort other = PackageId.sort apart := by
  intro a b c d alike apart
  have halike : alike.Pairwise fun x y => x.key ≠ y.key := by decide +kernel
  have hapart : apart.Pairwise fun x y => x.key ≠ y.key := by decide +kernel
  obtain ⟨hone, _, hmany⟩ := order_total_iff a.toRelease b.toRelease c.toRelease halike
  obtain ⟨_, htrans, hsort⟩ := order_total_iff a.toRelease c.toRelease d.toRelease hapart
  refine ⟨by decide +kernel, by decide +kernel, by decide +kernel, by decide +kernel, ?_,
    htrans (by decide +kernel) (by decide +kernel), ?_, hsort.2 (by decide +kernel)⟩
  · exact fun h => absurd (hone.1 h (by decide +kernel)) (by decide +kernel)
  · exact fun h => absurd (hmany.1 h) (by decide +kernel)

theorem Release.exists_unordered : ∃ a b : Version,
    Version.parse "1.0.0-1" = .ok a ∧ Version.parse "1.0.0-01" = .ok b ∧
      a.toRelease.precedes b.toRelease = false ∧ a.toRelease ≠ b.toRelease ∧
      b.toRelease.precedes a.toRelease = false ∧
      PackageId.sort [⟨"pad", a⟩, ⟨"pad", b⟩] ≠ PackageId.sort [⟨"pad", b⟩, ⟨"pad", a⟩] :=
  ⟨{ major := 1, minor := 0, patch := 0, pre := ["1"] },
    { major := 1, minor := 0, patch := 0, pre := ["01"] }, by decide +kernel, by decide +kernel,
    by decide +kernel, by decide +kernel, by decide +kernel, by decide +kernel⟩

end Vetting
