import Mathlib.Data.List.Forall2
import Vetting.Document.Audits
import Vetting.Proofs.CheckedResolution
import Vetting.Proofs.SortedMembers

/-! Entries read from sorted documents. They make the same records, but for texts that are made of
whole objects and for the order of what notes and origins hold. -/

namespace Vetting

theorem mapM_eq_ok_iff_forall₂ {ε α β : Type} {f : α → Except ε β} {l : List α} {bs : List β} :
    l.mapM f = .ok bs ↔ List.Forall₂ (fun a b => f a = .ok b) l bs := by
  induction l generalizing bs with
  | nil =>
    rw [List.forall₂_nil_left_iff]
    exact ⟨fun h => (Except.ok.inj h).symm, fun h => congrArg Except.ok h.symm⟩
  | cons a as ih =>
    rw [List.mapM_cons, List.forall₂_cons_left_iff]
    constructor
    · intro h
      obtain ⟨b, hb, hrest⟩ := bind_eq_ok h
      obtain ⟨rest, has, hpure⟩ := bind_eq_ok hrest
      exact ⟨b, rest, hb, ih.1 has, (Except.ok.inj hpure).symm⟩
    · rintro ⟨b, rest, hb, has, rfl⟩
      rw [hb, ih.2 has]
      rfl

theorem exists_map_of_mapM_eq_ok {ε α β : Type} [Inhabited β] {f : α → Except ε β} {l : List α}
    {bs : List β} (h : l.mapM f = .ok bs) : ∃ g, bs = l.map g ∧ ∀ a ∈ l, f a = .ok (g a) := by
  refine ⟨fun a => (f a).toOption.getD default, ?_⟩
  have hall := mapM_eq_ok_iff_forall₂.1 h
  clear h
  induction hall with
  | nil => exact ⟨rfl, fun _ ha => absurd ha List.not_mem_nil⟩
  | cons hb _ ih =>
    obtain ⟨hrest, hread⟩ := ih
    refine ⟨?_, List.forall_mem_cons.2 ⟨?_, hread⟩⟩
    · rw [List.map_cons, ← hrest, hb]
      rfl
    · show f _ = .ok ((f _).toOption.getD default)
      rw [hb]
      rfl

theorem exists_ok_of_map_eq {ε α β : Type} {x y : Except ε α} {f : α → β} {a : α}
    (h : x.map f = y.map f) (hy : y = .ok a) : ∃ a', x = .ok a' ∧ f a' = f a := by
  rw [hy] at h
  cases x with
  | error e => cases h
  | ok a' => exact ⟨a', rfl, Except.ok.inj h⟩

/-- What is regarded of the parts of a record that no verdict depends on, and of the texts of a
criterion. The order of the members of notes is not. -/
structure Regard where
  who : List String → List String
  notes : Json → Json
  origins : List Json → List Json
  text : String → String
  notes_sortMembers : ∀ v, notes v.sortMembers = notes v

namespace Regard

variable (k : Regard)

/-- Nothing is regarded but what verdicts depend on. -/
def essential : Regard := ⟨fun _ => [], fun _ => .null, fun _ => [], fun _ => "", fun _ => rfl⟩

/-- All is regarded but the order of the members of objects. -/
def contents : Regard :=
  ⟨id, Json.sortMembers, List.map Json.sortMembers, id, Json.sortMembers_sortMembers⟩

def record : AuditRecord → AuditRecord
  | .full a => .full { a with
      who := k.who a.who, notes := k.notes a.notes, aggregatedFrom := k.origins a.aggregatedFrom }
  | .delta a => .delta { a with
      who := k.who a.who, notes := k.notes a.notes, aggregatedFrom := k.origins a.aggregatedFrom }
  | .exemption e => .exemption { e with notes := k.notes e.notes }
  | .grant g => .grant { g with
      publisher := k.text g.publisher, notes := k.notes g.notes
      aggregatedFrom := k.origins g.aggregatedFrom }
  | .violation v => .violation { v with
      who := k.who v.who, notes := k.notes v.notes, aggregatedFrom := k.origins v.aggregatedFrom }

def criterion (c : Criterion) : Criterion :=
  { c with description := k.text c.description, descriptionUrl := k.notes c.descriptionUrl }

def rejected (r : RejectedRecord) : RejectedRecord := { r with record := k.record r.record }

variable {k} {m : CriteriaModel} {package : String} {r : AuditRecord}

theorem package_record : (k.record r).package = r.package := by
  cases r <;> rfl

theorem criteria_record : (k.record r).criteria = r.criteria := by
  cases r <;> rfl

theorem dependencyCriteria_record : (k.record r).dependencyCriteria = r.dependencyCriteria := by
  cases r <;> rfl

theorem isLoop_record : (k.record r).isLoop = r.isLoop := by
  cases r <;> rfl

theorem fault?_record : (k.record r).fault? m package = r.fault? m package := by
  simp only [AuditRecord.fault?, AuditRecord.dependencyFault?, package_record, criteria_record,
    dependencyCriteria_record, isLoop_record]

end Regard

namespace Document

variable {v : Json} {place there name : String} {entry ms : Json.Members} {k : Regard}

theorem field_sortEach : field (Json.sortEach entry) name = (field entry name).sortMembers := by
  rw [field, Json.lookup_sortEach, field]
  cases entry.lookup name with
  | none => simp [Json.sortMembers]
  | some v => rfl

theorem texts?_eq_some {items : List Json} {l : List String} (h : texts? items = some l) :
    items = l.map .str := by
  induction items generalizing l with
  | nil =>
    cases h
    rfl
  | cons v items ih =>
    cases v with
    | str s =>
      obtain ⟨rest, hrest, rfl⟩ := Option.map_eq_some_iff.1 h
      rw [ih hrest]
      rfl
    | null => cases h
    | bool => cases h
    | int => cases h
    | decimal => cases h
    | arr => cases h
    | obj => cases h

theorem map_sortMembers_str (l : List String) :
    (l.map Json.str).map Json.sortMembers = l.map Json.str := by
  rw [List.map_map]
  exact List.map_congr_left fun s _ => by simp [Json.sortMembers]

theorem names_place {s : NameSet} (h : names v place = .ok s) : names v there = .ok s := by
  cases v with
  | null => exact h
  | str t => exact h
  | arr items =>
    rw [names] at h ⊢
    cases htexts : texts? items with
    | none =>
      rw [htexts] at h
      cases h
    | some l =>
      rw [htexts] at h
      exact h
  | bool => cases h
  | int => cases h
  | decimal => cases h
  | obj => cases h

theorem names_sortMembers {s : NameSet} (h : names v place = .ok s) :
    names v.sortMembers there = .ok s := by
  have hsame : v.sortMembers = v := by
    cases v with
    | arr items =>
      rw [names] at h
      cases htexts : texts? items with
      | none =>
        rw [htexts] at h
        cases h
      | some l => rw [Json.sortMembers_arr, texts?_eq_some htexts, map_sortMembers_str]
    | null => simp [Json.sortMembers]
    | str => simp [Json.sortMembers]
    | bool => cases h
    | int => cases h
    | decimal => cases h
    | obj => cases h
  rw [hsame]
  exact names_place h

/-- The text of a list or an object starts with a bracket, which no version and no range does. -/
theorem asText_of_sortMembers_ne (h : v.sortMembers ≠ v) :
    ∃ c cs, (c = '[' ∨ c = '\x7b') ∧ v.asText.toList = c :: cs := by
  cases v with
  | arr items =>
    refine ⟨'[', (", ".intercalate (Json.literalItems items) ++ "]").toList, .inl rfl, ?_⟩
    simp [Json.asText, Json.literal]
  | obj ms =>
    refine ⟨'\x7b', (", ".intercalate (Json.literalMembers ms) ++ "\x7d").toList, .inr rfl, ?_⟩
    simp [Json.asText, Json.literal]
  | null => exact absurd (by simp [Json.sortMembers]) h
  | bool => exact absurd (by simp [Json.sortMembers]) h
  | int => exact absurd (by simp [Json.sortMembers]) h
  | decimal => exact absurd (by simp [Json.sortMembers]) h
  | str => exact absurd (by simp [Json.sortMembers]) h

section Bracket

variable {c : Char} {cs : List Char}

theorem stripped_of_bracket (hc : c = '[' ∨ c = '\x7b') :
    ∃ rest, Text.stripped (c :: cs) = c :: rest := by
  have hkept : Text.isBlank c = false := by
    rcases hc with rfl | rfl
    · decide
    · decide
  have hdrop : ∀ l : List Char, (l ++ [c]).dropWhile Text.isBlank = l.dropWhile Text.isBlank ++ [c] := by
    intro l
    induction l with
    | nil => simp [hkept]
    | cons d l ih =>
      rw [List.cons_append, List.dropWhile_cons, List.dropWhile_cons, ih]
      split
      · rfl
      · rfl
  refine ⟨(cs.reverse.dropWhile Text.isBlank).reverse, ?_⟩
  rw [Text.stripped, Text.trim, List.dropWhile_cons_of_neg (by simp [hkept]), List.reverse_cons,
    hdrop, List.reverse_append]
  rfl

theorem published?_of_bracket (hc : c = '[' ∨ c = '\x7b') :
    Version.published? (c :: cs) = none := by
  rcases hc with rfl | rfl
  · rfl
  · rfl

theorem parse_ne_ok_of_bracket {text : String} {w : Version} (hc : c = '[' ∨ c = '\x7b')
    (htext : text.toList = c :: cs) : Version.parse text ≠ .ok w := by
  intro h
  have hstripped : ∃ rest, Text.stripped (c :: cs) = c :: rest := stripped_of_bracket hc
  obtain ⟨rest, hrest⟩ := hstripped
  rw [Version.parse, htext, hrest] at h
  split at h
  · rw [published?_of_bracket hc] at h
    cases h
  · next front back hcut =>
    have hfront : ∃ cs, front = c :: cs := by
      have hsplit := Text.eq_append_of_cut? hcut
      cases front with
      | nil =>
        obtain ⟨rfl, _⟩ := List.cons.inj hsplit
        rcases hc with hc | hc
        · cases hc
        · cases hc
      | cons d front =>
        obtain ⟨rfl, _⟩ := List.cons.inj hsplit
        exact ⟨front, rfl⟩
    obtain ⟨cs, rfl⟩ := hfront
    have hstripped : ∃ rest, Text.stripped (c :: cs) = c :: rest := stripped_of_bracket hc
    obtain ⟨rest, hrest⟩ := hstripped
    rw [hrest, published?_of_bracket hc] at h
    split at h
    · cases h
    · cases h

theorem range_ne_ok_of_bracket {text : String} {w : VersionRange} (hc : c = '[' ∨ c = '\x7b')
    (htext : text.toList = c :: cs) : VersionRange.parse text ≠ .ok w := by
  intro h
  have hstripped : ∃ rest, Text.stripped (c :: cs) = c :: rest := stripped_of_bracket hc
  obtain ⟨rest, hrest⟩ := hstripped
  have hpiece : ∃ piece pieces, Text.splitAt ',' (c :: rest) = (c :: piece) :: pieces := by
    have hcomma : c ≠ ',' := by
      rcases hc with rfl | rfl
      · decide
      · decide
    rw [Text.splitAt, if_neg hcomma]
    cases hrest : Text.splitAt ',' rest with
    | nil => exact ⟨[], [], rfl⟩
    | cons piece pieces => exact ⟨piece, pieces, rfl⟩
  have hatom : ∀ piece, ∃ f, RangeAtom.parse (c :: piece) = .error f := by
    intro piece
    rcases hc with rfl | rfl
    · exact ⟨_, rfl⟩
    · exact ⟨_, rfl⟩
  obtain ⟨piece, pieces, hpieces⟩ := hpiece
  obtain ⟨f, hf⟩ := hatom piece
  rw [VersionRange.parse, htext, hrest] at h
  split at h
  · cases h
  · next hwild =>
    obtain ⟨rfl, _⟩ := List.cons.inj hwild
    rcases hc with hc | hc
    · cases hc
    · cases hc
  · next cs hcs =>
    rw [hpieces, List.mapM_cons, hf] at h
    cases h

end Bracket

theorem version_place {w : Version} (h : version v place = .ok w) : version v there = .ok w := by
  unfold version at h ⊢
  split at h
  · exact h
  · cases h

theorem range_place {w : VersionRange} (h : range v place = .ok w) : range v there = .ok w := by
  unfold range at h ⊢
  split at h
  · exact h
  · cases h

theorem version_sortMembers {w : Version} (h : version v place = .ok w) : v.sortMembers = v := by
  by_contra hne
  obtain ⟨c, cs, hc, htext⟩ := asText_of_sortMembers_ne hne
  unfold version at h
  split at h
  · next hparse => exact parse_ne_ok_of_bracket hc htext hparse
  · cases h

theorem range_sortMembers {w : VersionRange} (h : range v place = .ok w) : v.sortMembers = v := by
  by_contra hne
  obtain ⟨c, cs, hc, htext⟩ := asText_of_sortMembers_ne hne
  unfold range at h
  split at h
  · next hparse => exact range_ne_ok_of_bracket hc htext hparse
  · cases h

/-- The two versions of a change are read from a text, or not at all. -/
theorem arrow_sortMembers {before after : String} {w : Version}
    (harrow : arrow? v.asText = some (before, after))
    (h : version (.str before) place = .ok w) : v.sortMembers = v := by
  by_contra hne
  obtain ⟨c, cs, hc, htext⟩ := asText_of_sortMembers_ne hne
  obtain ⟨⟨front, back⟩, hcut, hparts⟩ := Option.map_eq_some_iff.1 harrow
  have hsplit := Text.eq_append_of_cut? hcut
  rw [htext] at hsplit
  have hbefore : ∃ cs, before.toList = c :: cs := by
    obtain ⟨rfl, _⟩ := Prod.mk.inj hparts
    cases front with
    | nil =>
      obtain ⟨rfl, _⟩ := List.cons.inj hsplit
      rcases hc with hc | hc
      · cases hc
      · cases hc
    | cons d front =>
      obtain ⟨rfl, _⟩ := List.cons.inj hsplit
      exact ⟨front, by simp⟩
  obtain ⟨cs, hcs⟩ := hbefore
  unfold version at h
  split at h
  · next hparse => exact parse_ne_ok_of_bracket hc hcs hparse
  · cases h

theorem dependencyCriteria_sortMembers {d : DependencyCriteria}
    (h : dependencyCriteria v place = .ok d) :
    dependencyCriteria v.sortMembers there = .ok d := by
  cases v with
  | null => exact h
  | obj ms =>
    obtain ⟨entries, hentries, hpure⟩ := bind_eq_ok h
    obtain ⟨g, rfl, hread⟩ := exists_map_of_mapM_eq_ok hentries
    have hnamed : ∀ m ∈ ms, (g m).1 = m.1 ∧
        ∀ place, names m.2.sortMembers place = .ok (g m).2 := by
      intro m hm
      obtain ⟨set, hset, hg⟩ := bind_eq_ok (hread m hm)
      rw [← Except.ok.inj hg]
      exact ⟨rfl, fun _ => names_sortMembers hset⟩
    have hsorted : (Json.sortEach ms).mapM (fun m => do
        let set ← names m.2 s!"{there}.{m.1}"
        pure (m.1, set)) = .ok ((sortBy (fun a b => decide (a.1 < b.1)) ms).map g) := by
      rw [Json.sortEach_eq, mapM_eq_ok_iff_forall₂, List.forall₂_map_left_iff,
        List.forall₂_map_right_iff, List.forall₂_same]
      intro m hm
      obtain ⟨hname, hset⟩ := hnamed m (mem_sortBy.1 hm)
      show (names m.2.sortMembers _ >>= fun set => Except.ok (m.1, set)) = .ok (g m)
      rw [hset, ok_bind, ← hname]
    rw [Json.sortMembers_obj, dependencyCriteria]
    show (_ >>= fun entries => Except.ok (NameMap.ofList entries)) = _
    rw [hsorted, ok_bind, NameMap.ofList_map_sortBy fun m hm => (hnamed m hm).1]
    exact hpure
  | bool => cases h
  | int => cases h
  | decimal => cases h
  | str => cases h
  | arr => cases h

section Entries

variable {package : String} {entry : Json.Members} {r : AuditRecord}

theorem kindFields_sortEach :
    kindFields (Json.sortEach entry) = (kindFields entry).map Json.sortMember := by
  have hfields : ∀ l : List String,
      l.filterMap (fun n => ((Json.sortEach entry).lookup n).map fun v => (n, v)) =
        (l.filterMap fun n => (entry.lookup n).map fun v => (n, v)).map Json.sortMember := by
    intro l
    rw [List.map_filterMap]
    refine List.filterMap_congr fun n _ => ?_
    rw [Json.lookup_sortEach]
    cases entry.lookup n with
    | none => rfl
    | some v => rfl
  exact hfields _

/-- Whether the fields that tell what an entry is make a record of what else it holds. -/
inductive Makes (package : String) (criteria : NameSet) (who : List String) (notes : Json)
    (aggregatedFrom : List Json) (dependencyCriteria : DependencyCriteria) (place : String) :
    List (String × Json) → AuditRecord → Prop
  | full {value : Json} {version : Version} (hversion : Document.version value place = .ok version) :
      Makes package criteria who notes aggregatedFrom dependencyCriteria place
        [("version", value)]
        (.full { package, version, criteria, who, notes, aggregatedFrom, dependencyCriteria })
  | delta {value : Json} {before after : String} {start target : Version}
      (harrow : arrow? value.asText = some (before, after))
      (hstart : Document.version (.str before) place = .ok start)
      (htarget : Document.version (.str after) place = .ok target) :
      Makes package criteria who notes aggregatedFrom dependencyCriteria place [("delta", value)]
        (.delta
          { package, start, target, criteria, who, notes, aggregatedFrom, dependencyCriteria })
  | violation {value : Json} {versions : VersionRange} (hrange : range value place = .ok versions) :
      Makes package criteria who notes aggregatedFrom dependencyCriteria place
        [("violation", value)]
        (.violation { package, versions, criteria, who, notes, aggregatedFrom })

variable {criteria : NameSet} {who : List String} {notes : Json} {origins : List Json}
  {dependencies : DependencyCriteria} {fields : List (String × Json)}

theorem Makes.package_eq
    (h : Makes package criteria who notes origins dependencies place fields r) :
    r.package = package := by
  cases h with
  | full => rfl
  | delta => rfl
  | violation => rfl

/-- What an entry has to hold to make a record, and which one it makes. -/
theorem auditEntry_eq_ok_iff : auditEntry package entry place = .ok r ↔
    ∃ criteria who origins dependencies,
      names (field entry "criteria") s!"{place}.criteria" = .ok criteria ∧
      Document.who (field entry "who") = .ok who ∧
      parts ((field entry "aggregated-from").orElse (.arr [])) = .ok origins ∧
      dependencyCriteria (field entry "dependency-criteria") s!"{place}.dependency-criteria" =
        .ok dependencies ∧
      Makes package criteria who (field entry "notes") origins dependencies place
        (kindFields entry) r := by
  constructor
  · intro h
    obtain ⟨criteria, hcriteria, h⟩ := bind_eq_ok h
    obtain ⟨who, hwho, h⟩ := bind_eq_ok h
    obtain ⟨origins, horigins, h⟩ := bind_eq_ok h
    obtain ⟨dependencies, hdependencies, h⟩ := bind_eq_ok h
    refine ⟨criteria, who, origins, dependencies, hcriteria, hwho, horigins, hdependencies, ?_⟩
    split at h
    · next value hkind =>
      obtain ⟨version, hversion, h⟩ := bind_eq_ok h
      cases h
      exact hkind ▸ .full hversion
    · next value hkind =>
      split at h
      · cases h
      · next before after harrow =>
        obtain ⟨start, hstart, h⟩ := bind_eq_ok h
        obtain ⟨target, htarget, h⟩ := bind_eq_ok h
        cases h
        exact hkind ▸ .delta harrow hstart htarget
    · next value hkind =>
      obtain ⟨versions, hversions, h⟩ := bind_eq_ok h
      cases h
      exact hkind ▸ .violation hversions
    · cases h
  · rintro ⟨criteria, who, origins, dependencies, hcriteria, hwho, horigins, hdependencies, hkind⟩
    rw [auditEntry, hcriteria, ok_bind, hwho, ok_bind, horigins, ok_bind, hdependencies, ok_bind]
    generalize kindFields entry = fields at hkind
    cases hkind with
    | full hversion =>
      simp only [hversion]
      rfl
    | delta harrow hstart htarget =>
      simp only [harrow, hstart, htarget]
      rfl
    | violation hrange =>
      simp only [hrange]
      rfl

theorem package_of_auditEntry (h : auditEntry package entry place = .ok r) :
    r.package = package := by
  obtain ⟨_, _, _, _, _, _, _, _, hkind⟩ := auditEntry_eq_ok_iff.1 h
  exact hkind.package_eq

/-- What an entry has to hold to make a grant, and which one it makes. -/
theorem grantEntry_eq_ok_iff : grantEntry package entry place = .ok r ↔
    (field entry "publisher").isGiven = true ∧ ∃ versions criteria origins,
      range ((entry.lookup "versions").getD (.str "*")) place = .ok versions ∧
      names (field entry "criteria") s!"{place}.criteria" = .ok criteria ∧
      parts ((field entry "aggregated-from").orElse (.arr [])) = .ok origins ∧
      r = .grant { package, versions, criteria, publisher := (field entry "publisher").asText
                   notes := field entry "notes", aggregatedFrom := origins } := by
  unfold grantEntry
  dsimp only
  cases hgiven : (field entry "publisher").isGiven with
  | false =>
    rw [Bool.not_false, if_pos rfl]
    constructor
    · intro h
      cases h
    · intro h
      cases h.1
  | true =>
    rw [Bool.not_true, if_neg Bool.false_ne_true]
    constructor
    · intro h
      obtain ⟨versions, hversions, h⟩ := bind_eq_ok h
      obtain ⟨criteria, hcriteria, h⟩ := bind_eq_ok h
      obtain ⟨origins, horigins, h⟩ := bind_eq_ok h
      exact ⟨rfl, versions, criteria, origins, hversions, hcriteria, horigins,
        (Except.ok.inj h).symm⟩
    · rintro ⟨_, versions, criteria, origins, hversions, hcriteria, horigins, rfl⟩
      rw [hversions, hcriteria, horigins]
      rfl

theorem package_of_grantEntry (h : grantEntry package entry place = .ok r) :
    r.package = package := by
  obtain ⟨_, _, _, _, _, _, _, rfl⟩ := grantEntry_eq_ok_iff.1 h
  rfl

end Entries

end Document

namespace Regard

open Document

variable {k : Regard} {package place : String} {entry : Json.Members} {r : AuditRecord}

/-- Whether what is regarded of an entry stays the same when it is sorted. -/
structure KeepsEntry (k : Regard) (entry : Json.Members) : Prop where
  who : (Document.who (field entry "who").sortMembers).map k.who =
    (Document.who (field entry "who")).map k.who
  origins : (parts ((field entry "aggregated-from").sortMembers.orElse (.arr []))).map k.origins =
    (parts ((field entry "aggregated-from").orElse (.arr []))).map k.origins
  publisher : k.text (field entry "publisher").sortMembers.asText =
    k.text (field entry "publisher").asText

variable {criteria : NameSet} {who who' : List String} {notes : Json} {origins origins' : List Json}
  {dependencies : DependencyCriteria} {fields : List (String × Json)}

theorem exists_sorted_makes
    (h : Makes package criteria who notes origins dependencies place fields r)
    (hwho : k.who who' = k.who who) (horigins : k.origins origins' = k.origins origins) :
    ∃ r', (∀ place, Makes package criteria who' notes.sortMembers origins' dependencies place
      (fields.map Json.sortMember) r') ∧ k.record r' = k.record r := by
  cases h with
  | @full value version hversion =>
    refine ⟨.full { package, version, criteria, who := who', notes := notes.sortMembers
                    aggregatedFrom := origins', dependencyCriteria := dependencies }, ?_, ?_⟩
    · intro place
      rw [List.map_cons, Json.sortMember, version_sortMembers hversion]
      exact .full (version_place hversion)
    · simp only [record, hwho, k.notes_sortMembers, horigins]
  | @delta value before after start target harrow hstart htarget =>
    refine ⟨.delta { package, start, target, criteria, who := who', notes := notes.sortMembers
                     aggregatedFrom := origins', dependencyCriteria := dependencies }, ?_, ?_⟩
    · intro place
      rw [List.map_cons, Json.sortMember, arrow_sortMembers harrow hstart]
      exact .delta harrow (version_place hstart) (version_place htarget)
    · simp only [record, hwho, k.notes_sortMembers, horigins]
  | @violation value versions hrange =>
    refine ⟨.violation { package, versions, criteria, who := who', notes := notes.sortMembers
                         aggregatedFrom := origins' }, ?_, ?_⟩
    · intro place
      rw [List.map_cons, Json.sortMember, range_sortMembers hrange]
      exact .violation (range_place hrange)
    · simp only [record, hwho, k.notes_sortMembers, horigins]

/-- A sorted entry makes the same record for all that is regarded, wherever it stands. -/
theorem exists_auditEntry_sortEach (hk : k.KeepsEntry entry)
    (h : auditEntry package entry place = .ok r) :
    ∃ r', (∀ place, auditEntry package (Json.sortEach entry) place = .ok r') ∧
      k.record r' = k.record r := by
  obtain ⟨criteria, who, origins, dependencies, hcriteria, hwho, horigins, hdependencies, hkind⟩ :=
    auditEntry_eq_ok_iff.1 h
  obtain ⟨who', hwho', hsamewho⟩ := exists_ok_of_map_eq hk.who hwho
  obtain ⟨origins', horigins', hsameorigins⟩ := exists_ok_of_map_eq hk.origins horigins
  obtain ⟨r', hkind', hsame⟩ := exists_sorted_makes hkind hsamewho hsameorigins
  refine ⟨r', fun place => ?_, hsame⟩
  rw [auditEntry_eq_ok_iff]
  simp only [field_sortEach, kindFields_sortEach]
  exact ⟨criteria, who', origins', dependencies, names_sortMembers hcriteria, hwho', horigins',
    dependencyCriteria_sortMembers hdependencies, hkind' place⟩

theorem exists_grantEntry_sortEach (hk : k.KeepsEntry entry)
    (h : grantEntry package entry place = .ok r) :
    ∃ r', (∀ place, grantEntry package (Json.sortEach entry) place = .ok r') ∧
      k.record r' = k.record r := by
  obtain ⟨hgiven, versions, criteria, origins, hversions, hcriteria, horigins, rfl⟩ :=
    grantEntry_eq_ok_iff.1 h
  obtain ⟨origins', horigins', hsameorigins⟩ := exists_ok_of_map_eq hk.origins horigins
  have hrange : ((Json.sortEach entry).lookup "versions").getD (.str "*") =
      (entry.lookup "versions").getD (.str "*") := by
    rw [Json.lookup_sortEach]
    cases hlookup : entry.lookup "versions" with
    | none => rfl
    | some v =>
      rw [hlookup] at hversions
      exact range_sortMembers hversions
  refine ⟨.grant { package, versions, criteria
                   publisher := (field entry "publisher").sortMembers.asText
                   notes := (field entry "notes").sortMembers, aggregatedFrom := origins' }, ?_, ?_⟩
  · intro place
    rw [grantEntry_eq_ok_iff, hrange]
    simp only [field_sortEach, Json.isGiven_sortMembers]
    exact ⟨hgiven, versions, criteria, origins', range_place hversions, names_sortMembers hcriteria,
      horigins', rfl⟩
  · simp only [record, hk.publisher, k.notes_sortMembers, hsameorigins]

end Regard

end Vetting
