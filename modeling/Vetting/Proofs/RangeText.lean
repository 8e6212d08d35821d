import Mathlib.Data.List.TakeWhile
import Vetting.Proofs.PackageText
import Vetting.Version.Range

/-! Version ranges and their texts. A comparator in front of a bound reads as that comparison, atoms
between commas read one by one, and the range made for one version holds that version alone. -/

namespace Vetting

open Text

namespace Text

variable {sep : Char} {cs front : List Char}

theorem splitAt_of_not_mem (h : sep ∉ cs) : splitAt sep cs = [cs] := by
  induction cs with
  | nil => rfl
  | cons c cs ih =>
    obtain ⟨hc, hcs⟩ := not_or.1 (mt List.mem_cons.2 h)
    rw [splitAt, if_neg (Ne.symm hc), ih hcs]

theorem splitAt_append (h : sep ∉ front) (back : List Char) :
    splitAt sep (front ++ sep :: back) = front :: splitAt sep back := by
  induction front with
  | nil => rw [List.nil_append, splitAt, if_pos rfl]
  | cons c front ih =>
    obtain ⟨hc, hfront⟩ := not_or.1 (mt List.mem_cons.2 h)
    rw [List.cons_append, splitAt, if_neg (Ne.symm hc), ih hfront]

end Text

namespace Comparator

variable {op : Comparator} {mark cs : List Char} {c : Char}

/-- How a comparator is written. -/
def symbol : Comparator → String
  | equal => "="
  | unequal => "!="
  | atLeast => ">="
  | atMost => "<="
  | above => ">"
  | below => "<"
  | caret => "^"
  | tilde => "~"

/-- What may be written for a comparator: its symbol, and nothing for compatibility. -/
def Writes (mark : List Char) (op : Comparator) : Prop :=
  mark = op.symbol.toList ∨ mark = [] ∧ op = caret

theorem read_append (hmark : Writes mark op) (hc : isAsciiDigit c = true) :
    read (mark ++ c :: cs) = (op, c :: cs) := by
  have hother : c ≠ '=' ∧ c ≠ '!' ∧ c ≠ '>' ∧ c ≠ '<' ∧ c ≠ '^' ∧ c ≠ '~' := by
    refine ⟨?_, ?_, ?_, ?_, ?_, ?_⟩ <;> rintro rfl <;> revert hc <;> decide
  rcases hmark with rfl | ⟨rfl, rfl⟩
  · cases op <;> simp [symbol, read, hother]
  · simp [read, hother]

theorem comma_not_mem (hmark : Writes mark op) : ',' ∉ mark := by
  rcases hmark with rfl | ⟨rfl, rfl⟩
  · cases op <;> decide
  · exact List.not_mem_nil

theorem isBlank_head_symbol (hc : op.symbol.toList.head? = some c) : isBlank c = false := by
  cases op <;> cases hc <;> decide

end Comparator

namespace RangeAtom

variable {op : Comparator} {mark part rest : List Char} {c : Char} {bound : String} {v : Version}
  {atom : RangeAtom} {atoms : List RangeAtom}

/-- What stands behind a comparator in an atom that is accepted, and the version it reads as. -/
structure Accepts (bound : String) (v : Version) : Prop where
  found : ∃ rest, boundText? rest = some bound.toList
  reads : Version.parse bound = .ok v

theorem isBlank_eq_false_of_isBoundChar (h : isBoundChar c = true) : isBlank c = false :=
  (Version.of_isPublishedChar h).1

theorem isBoundChar_of_isAsciiDigit (h : isAsciiDigit c = true) : isBoundChar c = true := by
  rw [isBoundChar, Version.isTagChar, h]
  rfl

theorem Accepts.exists_eq_cons (h : Accepts bound v) : ∃ c cs, bound.toList = c :: cs ∧
    isAsciiDigit c = true ∧ ∀ d ∈ cs, isBoundChar d = true := by
  obtain ⟨rest, hfound⟩ := h.found
  unfold boundText? at hfound
  split at hfound
  · cases hfound
  · next c cs _ =>
    split at hfound
    · next hcond =>
      exact ⟨c, cs.takeWhile isBoundChar, (Option.some.inj hfound).symm,
        (Bool.and_eq_true_iff.1 hcond).1, List.all_eq_true.1 List.all_takeWhile⟩
    · cases hfound

theorem Accepts.isBoundChar_of_mem (h : Accepts bound v) (hc : c ∈ bound.toList) :
    isBoundChar c = true := by
  obtain ⟨d, ds, hbound, hdigit, hrest⟩ := h.exists_eq_cons
  rw [hbound] at hc
  rcases List.mem_cons.1 hc with rfl | hc
  · exact isBoundChar_of_isAsciiDigit hdigit
  · exact hrest c hc

theorem Accepts.isBlank_head (h : Accepts bound v) (hmark : op.Writes mark)
    (hc : (mark ++ bound.toList).head? = some c) : isBlank c = false := by
  rcases hmark with rfl | ⟨rfl, rfl⟩
  · rw [List.head?_append, Option.or_eq_some_iff] at hc
    rcases hc with hc | ⟨hnone, _⟩
    · exact Comparator.isBlank_head_symbol hc
    · cases op <;> cases hnone
  · exact isBlank_eq_false_of_isBoundChar (h.isBoundChar_of_mem (List.mem_of_head? hc))

theorem boundText?_cons {cs : List Char} (hc : isAsciiDigit c = true)
    (hcs : ∀ d ∈ cs, isBoundChar d = true) : boundText? (c :: cs) = some (c :: cs) := by
  have hblank : isBlank c = false :=
    isBlank_eq_false_of_isBoundChar (isBoundChar_of_isAsciiDigit hc)
  rw [boundText?, dropWhile_eq_self (by simpa using hblank)]
  simp [hc, List.takeWhile_eq_self_iff.2 hcs, List.dropWhile_eq_nil_iff.2 hcs]

/-- A published version that was read is a bound as it is written. -/
theorem accepts_text (hv : v.Readable) (hrevision : v.revision = none) : Accepts v.text v := by
  have hpublished : v.published = v := by
    rw [Version.published, ← hrevision]
  obtain ⟨c, hhead, hc⟩ := Version.head?_of_published? (Version.published?_text hv)
  rw [hpublished] at hhead
  obtain ⟨cs, hchars⟩ := List.head?_eq_some_iff.1 hhead
  refine ⟨⟨v.text.toList, ?_⟩, Version.parse_text_of_readable hv⟩
  rw [hchars]
  refine boundText?_cons hc fun d hd => ?_
  exact Version.isPublishedChar_of_mem_text hv hrevision (hchars ▸ List.mem_cons_of_mem c hd)

/-- An atom and how it is written: blanks, what stands for its comparator, and a bound. -/
inductive Spells : List Char → RangeAtom → Prop
  | mk {lead mark : List Char} {op : Comparator} {bound : String} {v : Version}
      (hlead : ∀ c ∈ lead, isBlank c = true) (hmark : op.Writes mark) (hbound : Accepts bound v) :
      Spells (lead ++ (mark ++ bound.toList)) ⟨op, v.toRelease⟩

theorem Spells.parse_eq (h : Spells part atom) : parse part = .ok atom := by
  obtain ⟨hlead, hmark, hbound⟩ := h
  obtain ⟨c, cs, hchars, hc, hcs⟩ := hbound.exists_eq_cons
  rw [parse, dropWhile_append_of_forall hlead fun d hd => hbound.isBlank_head hmark hd, hchars,
    Comparator.read_append hmark hc]
  dsimp only
  rw [boundText?_cons hc hcs, ← hchars]
  dsimp only
  rw [String.ofList_toList, hbound.reads]
  rfl

theorem Spells.comma_not_mem (h : Spells part atom) : ',' ∉ part := by
  obtain ⟨hlead, hmark, hbound⟩ := h
  rw [List.mem_append, List.mem_append, not_or, not_or]
  refine ⟨fun hmem => ?_, Comparator.comma_not_mem hmark, fun hmem => ?_⟩
  · exact absurd (hlead ',' hmem) (by decide)
  · exact absurd (hbound.isBoundChar_of_mem hmem) (by decide)

theorem mapM_splitAt_single (h : Spells part atom) :
    (splitAt ',' part).mapM parse = .ok [atom] := by
  rw [splitAt_of_not_mem h.comma_not_mem, List.mapM_cons, h.parse_eq]
  rfl

theorem mapM_splitAt_cons (h : Spells part atom)
    (hrest : (splitAt ',' rest).mapM parse = .ok atoms) :
    (splitAt ',' (part ++ ',' :: rest)).mapM parse = .ok (atom :: atoms) := by
  rw [splitAt_append h.comma_not_mem, List.mapM_cons, h.parse_eq, hrest]
  rfl

end RangeAtom

namespace VersionRange

variable {op : Comparator} {raw bound : String} {v : Version} {atoms : List RangeAtom}

/-- A range that ends with a bound reads as the atoms between its commas do. -/
theorem parse_of_atoms (hbound : RangeAtom.Accepts bound v)
    (hraw : bound.toList <:+ raw.toList)
    (hhead : ∀ c, raw.toList.head? = some c → isBlank c = false)
    (hatoms : (splitAt ',' raw.toList).mapM RangeAtom.parse = .ok atoms) :
    parse raw = .ok ⟨raw, atoms⟩ := by
  obtain ⟨c, cs, hchars, _, _⟩ := hbound.exists_eq_cons
  have hne : bound.toList ≠ [] := hchars ▸ List.cons_ne_nil c cs
  obtain ⟨front, hraw⟩ := hraw
  have hlast : ∀ d, raw.toList.getLast? = some d → RangeAtom.isBoundChar d = true := by
    intro d hd
    rw [← hraw, List.getLast?_append_of_ne_nil _ hne] at hd
    exact hbound.isBoundChar_of_mem (List.mem_of_getLast? hd)
  have hstripped : stripped raw.toList = raw.toList :=
    trim_eq_self hhead fun d hd => RangeAtom.isBlank_eq_false_of_isBoundChar (hlast d hd)
  unfold parse
  rw [hstripped]
  split
  · next hnil =>
    rw [← hraw] at hnil
    exact absurd (List.append_eq_nil_iff.1 hnil).2 hne
  · next hwild =>
    exact absurd (hlast '*' (by rw [hwild]; rfl)) (by decide)
  · rw [hatoms]
    rfl

/-- A range of one atom. -/
theorem parse_single {mark : List Char} (hmark : op.Writes mark)
    (hbound : RangeAtom.Accepts bound v) (hraw : raw.toList = mark ++ bound.toList) :
    parse raw = .ok ⟨raw, [⟨op, v.toRelease⟩]⟩ := by
  have hspells : RangeAtom.Spells raw.toList ⟨op, v.toRelease⟩ := by
    have hnothing : ∀ c ∈ ([] : List Char), isBlank c = true := fun _ h => absurd h List.not_mem_nil
    rw [hraw]
    exact .mk hnothing hmark hbound
  exact parse_of_atoms hbound ⟨mark, hraw.symm⟩ (fun c hc => hbound.isBlank_head hmark (hraw ▸ hc))
    (RangeAtom.mapM_splitAt_single hspells)

/-- The range that is made for a version holds the versions that were published as that one was, and
it can be made for every version that was read. -/
theorem exact_contains_iff {text : String} (h : Version.parse text = .ok v) :
    ∃ range, exact v = .ok range ∧
      ∀ w : Version, range.contains w.toRelease = true ↔
        w.published.toRelease = v.published.toRelease := by
  have hreadable : v.published.Readable := (Version.readable_of_parse h).published
  have hbound : RangeAtom.Accepts v.published.text v.published :=
    RangeAtom.accepts_text hreadable rfl
  have hmark : Comparator.equal.Writes ['='] := .inl rfl
  refine ⟨_, parse_single hmark hbound String.toList_append, fun w => ?_⟩
  simp only [contains, List.all_cons, List.all_nil, Bool.and_true, RangeAtom.admits, beq_iff_eq,
    Version.toRelease_published]

theorem exact_contains_iff_pinned :
    let v : Version := { major := 1, minor := 0, patch := 0, pre := ["", "a-"]
                         revision := some "x, 2", build := "-.b" }
    let w : Version := { major := 1, minor := 0, patch := 0, pre := ["", "a-"]
                         revision := some "y" }
    Version.parse "1.0.0-.a-+-.b@git:x, 2" = .ok v ∧
      ∃ range, exact v = .ok range ∧ range.contains w.toRelease = true := by
  intro v w
  have h : Version.parse "1.0.0-.a-+-.b@git:x, 2" = .ok v := by decide +kernel
  obtain ⟨range, hrange, hcontains⟩ := exact_contains_iff h
  exact ⟨h, range, hrange, (hcontains w).2 rfl⟩

end VersionRange

end Vetting
