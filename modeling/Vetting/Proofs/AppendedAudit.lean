import Vetting.Proofs.ReorderedCriteria
import Vetting.Workspace.Save

/-! A store with an audit appended to its file. Its records are those that it had, with the new one
behind the audits of its package. -/

namespace Vetting

theorem filter_filterMap_key {α β : Type} {f : α → Option β} {key : α → String} {name : β → String}
    {k : String} {l : List α} (h : ∀ a b, f a = some b → name b = key a) :
    (l.filterMap f).filter (fun b => decide (name b = k)) =
      (l.filter fun a => decide (key a = k)).filterMap f := by
  rw [List.filter_filterMap, List.filterMap_filter]
  refine List.filterMap_congr fun a _ => ?_
  cases hf : f a with
  | none => split <;> rfl
  | some b => rw [Option.filter_some, h a b hf]

namespace AuditStore

variable {k : Regard} {m n : CriteriaModel} {records records' more : List AuditRecord}
  {r : AuditRecord} {package : String}

theorem recordsFor_ofRecords : (ofRecords m records).recordsFor package =
    (recordsOf package records).filter fun r => (r.fault? m r.package).isNone := by
  rw [recordsFor, recordsOf, accepted_ofRecords, List.filter_filter, List.filter_filter]
  exact List.filter_congr fun r _ => Bool.and_comm _ _

/-- Which records of a package are accepted is a matter of what is regarded. -/
theorem map_recordsFor : ((ofRecords m records).recordsFor package).map k.record =
    ((recordsOf package records).map k.record).filter fun r =>
      (r.fault? m r.package).isNone := by
  rw [recordsFor_ofRecords, List.filter_map]
  refine congrArg (List.map k.record) (List.filter_congr fun r _ => ?_)
  rw [Function.comp, Regard.package_record, Regard.fault?_record]

theorem package_of_reject? {filed : String × AuditRecord} {x : RejectedRecord}
    (h : reject? m filed = some x) : x.package = filed.1 := by
  obtain ⟨fault, _, rfl⟩ := Option.map_eq_some_iff.1 h
  rfl

theorem rejected_filter {filed : List (String × AuditRecord)} :
    (ofFiled m filed).rejected.filter (fun x => decide (x.package = package)) =
      (filed.filter fun f => decide (f.1 = package)).filterMap (reject? m) := by
  rw [ofFiled, filter_filterMap_key fun _ _ => package_of_reject?, filter_sortBy_key Prod.fst]

/-- Records are refused in order of their packages. -/
theorem pairwise_rejected {filed : List (String × AuditRecord)} :
    (ofFiled m filed).rejected.Pairwise fun x y => x.package ≤ y.package := by
  rw [ofFiled, List.pairwise_filterMap]
  refine (pairwise_sortBy_key Prod.fst filed).imp fun hle x hx y hy => ?_
  rw [package_of_reject? hx, package_of_reject? hy]
  exact hle

theorem map_rejected_ofRecords : ((ofRecords m records).rejected.map k.rejected).filter
      (fun f => decide (f.package = package)) =
    ((recordsOf package records).map k.record).filterMap fun r => reject? m (r.package, r) := by
  have hrejects : ∀ r : AuditRecord, (reject? m (r.package, r)).map k.rejected =
      reject? m ((k.record r).package, k.record r) := by
    intro r
    rw [reject?, reject?, Regard.package_record, Regard.fault?_record, Option.map_map]
    rfl
  rw [List.filter_map]
  change ((ofRecords m records).rejected.filter fun x => decide (x.package = package)).map _ = _
  rw [ofRecords, rejected_filter, List.filter_map, List.map_filterMap, List.filterMap_map,
    List.filterMap_map]
  exact List.filterMap_congr fun r _ => hrejects r

theorem pairwise_map_rejected : ((ofRecords m records).rejected.map k.rejected).Pairwise
    fun a b => a.package ≤ b.package := List.pairwise_map.2 pairwise_rejected

/-- A valid record adds nothing to those that are refused. -/
theorem map_rejected_insert (hvalid : r.fault? m r.package = none) :
    (ofRecords m (records ++ r :: more)).rejected.map k.rejected =
      (ofRecords m (records ++ more)).rejected.map k.rejected := by
  have hnone : reject? m ((k.record r).package, k.record r) = none := by
    rw [reject?, Regard.package_record, Regard.fault?_record, hvalid]
    rfl
  refine eq_of_filter_key_eq pairwise_map_rejected pairwise_map_rejected fun package => ?_
  rw [map_rejected_ofRecords, map_rejected_ofRecords, recordsOf_append, recordsOf_append,
    recordsOf_cons, List.map_append, List.map_append, List.filterMap_append, List.filterMap_append]
  congr 1
  split
  · rw [List.map_cons]
    exact List.filterMap_cons_none hnone
  · rfl

variable (hsame : n.SameAs k m) (h : k.Alike records' records)

include hsame h

theorem map_recordsFor_congr : ((ofRecords n records').recordsFor package).map k.record =
    ((ofRecords m records).recordsFor package).map k.record := by
  rw [map_recordsFor, map_recordsFor, hsame.fault?_eq, h]

theorem map_rejected_congr : (ofRecords n records').rejected.map k.rejected =
    (ofRecords m records).rejected.map k.rejected := by
  have hreject : reject? n = reject? m := by
    funext filed
    rw [reject?, reject?, hsame.fault?_eq]
  refine eq_of_filter_key_eq pairwise_map_rejected pairwise_map_rejected fun package => ?_
  rw [map_rejected_ofRecords, map_rejected_ofRecords, hreject, h]

end AuditStore

namespace Document

variable {k : Regard} {name other package : String} {value : Json} {file file' ms entry : Json.Members}
  {items : List Json} {r : AuditRecord}

theorem mem_put {m : String × Json} (h : m ∈ ms.put name value) : m = (name, value) ∨ m ∈ ms := by
  induction ms with
  | nil => exact .inl (List.mem_singleton.1 h)
  | cons n ms ih =>
    rw [Json.Members.put] at h
    split at h
    · next hn =>
      rcases List.mem_cons.1 h with rfl | h
      · exact .inl (by rw [hn])
      · exact .inr (List.mem_cons_of_mem _ h)
    · rcases List.mem_cons.1 h with rfl | h
      · exact .inr List.mem_cons_self
      · exact (ih h).imp id (List.mem_cons_of_mem _)

theorem field_put : field (file.put name value) other =
    if other = name then value else field file other := by
  rw [field, Json.lookup_put, field]
  split
  · rfl
  · rfl

theorem field_eq_null_or_mem (entry : Json.Members) (name : String) :
    field entry name = .null ∨ (name, field entry name) ∈ entry := by
  rw [field]
  cases hlookup : entry.lookup name with
  | none => exact .inl rfl
  | some v =>
    obtain ⟨before, after, rfl, _⟩ := List.lookup_eq_some_iff.1 hlookup
    exact .inr (List.mem_append_right before List.mem_cons_self)

theorem IsSection.orElse_eq (h : IsSection value ms) : value.orElse (.obj []) = .obj ms := by
  rcases h with rfl | ⟨rfl, rfl⟩
  · cases ms with
    | nil => rfl
    | cons => rfl
  · rfl

/-- A record is appended as one entry behind those of its package. -/
theorem exists_put_of_appendAudit (h : appendAudit file r = .ok file')
    (hsection : IsSection (field file "audits") ms) :
    ∃ entry items, entryOf r = .ok entry ∧ (ms.lookup r.package).getD (.arr []) = .arr items ∧
      file' = file.put "audits" (.obj (ms.put r.package (.arr (items ++ [.obj entry])))) := by
  obtain ⟨entry, hentry, h⟩ := bind_eq_ok h
  obtain ⟨audits, haudits, h⟩ := bind_eq_ok h
  rw [appendEntry, hsection.orElse_eq] at haudits
  dsimp only at haudits
  split at haudits
  · next items hitems =>
    refine ⟨entry, items, hentry, hitems, ?_⟩
    rw [← Except.ok.inj h, ← Except.ok.inj haudits]
  · cases haudits

/-- Whether the texts that an entry may have written stay what they are when it is sorted. -/
def Plain (entry : Json.Members) : Prop :=
  ∀ m ∈ entry, m.1 ≠ "aggregated-from" ∧ m.1 ≠ "publisher" ∧
    (m.1 = "who" → m.2.sortMembers = m.2)

theorem sortMembers_whoValue (who : List String) : (whoValue who).sortMembers = whoValue who := by
  match who with
  | [] => simp [whoValue, Json.sortMembers]
  | [one] => simp [whoValue, Json.sortMembers]
  | one :: two :: rest =>
    show (Json.arr _).sortMembers = Json.arr _
    rw [Json.sortMembers_arr, map_sortMembers_str]

theorem plain_single (hname : name ∉ ["aggregated-from", "publisher", "who"]) :
    Plain [(name, value)] := by
  simp only [List.mem_cons, List.not_mem_nil, or_false, not_or] at hname
  obtain ⟨horigins, hpublisher, hwho⟩ := hname
  intro m hm
  rw [List.mem_singleton.1 hm]
  exact ⟨horigins, hpublisher, fun h => absurd h hwho⟩

theorem plain_append {more : Json.Members} (h : Plain entry) (hmore : Plain more) :
    Plain (entry ++ more) := List.forall_mem_append.2 ⟨h, hmore⟩

theorem plain_given (hname : name ∉ ["aggregated-from", "publisher", "who"]) :
    Plain (given name value) := by
  rw [given]
  split
  · exact plain_single hname
  · exact fun _ hm => absurd hm List.not_mem_nil

theorem plain_whoField (who : List String) : Plain (whoField who) := by
  rw [whoField]
  split
  · exact fun _ hm => absurd hm List.not_mem_nil
  · have hname : "who" ≠ "aggregated-from" ∧ "who" ≠ "publisher" := by decide
    intro m hm
    rw [List.mem_singleton.1 hm]
    exact ⟨hname.1, hname.2, fun _ => sortMembers_whoValue who⟩

theorem plain_entryOf (h : entryOf r = .ok entry) : Plain entry := by
  cases r with
  | full a =>
    obtain rfl : fullEntry a = entry := Except.ok.inj h
    have hkind : Plain [("criteria", nameList a.criteria), ("version", .str a.version.text)] :=
      plain_append (plain_single (by decide)) (plain_single (by decide))
    exact plain_append (plain_append (plain_append hkind (plain_whoField _))
      (plain_given (by decide))) (plain_given (by decide))
  | delta a =>
    obtain rfl : deltaEntry a = entry := Except.ok.inj h
    have hkind : Plain [("criteria", nameList a.criteria),
        ("delta", .str s!"{a.start} -> {a.target}")] :=
      plain_append (plain_single (by decide)) (plain_single (by decide))
    exact plain_append (plain_append (plain_append hkind (plain_whoField _))
      (plain_given (by decide))) (plain_given (by decide))
  | exemption => cases h
  | grant => cases h
  | violation => cases h

theorem Plain.keepsEntry (h : Plain entry) : k.KeepsEntry entry := by
  have hnull : ∀ name, (∀ m ∈ entry, m.1 ≠ name) → field entry name = .null := fun name hname =>
    (field_eq_null_or_mem entry name).resolve_right fun hmem => hname _ hmem rfl
  have hsorted : Json.null.sortMembers = .null := by simp [Json.sortMembers]
  have hwho : (field entry "who").sortMembers = field entry "who" := by
    rcases field_eq_null_or_mem entry "who" with hfield | hmem
    · rw [hfield, hsorted]
    · exact (h _ hmem).2.2 rfl
  have horigins : field entry "aggregated-from" = .null := hnull _ fun m hm => (h m hm).1
  have hpublisher : field entry "publisher" = .null := hnull _ fun m hm => (h m hm).2.1
  exact ⟨by rw [hwho], by rw [horigins, hsorted], by rw [hpublisher, hsorted]⟩

end Document

namespace Regard

open Document

variable {k : Regard} {read : String → Json.Members → String → Read AuditRecord} {value : Json}
  {place : String} {file file' ms entry : Json.Members} {items : List Json}
  {records audits grants : List AuditRecord} {r : AuditRecord}

/-- The records of a section, and those that it makes for a package when it is sorted. -/
theorem Steady.exists_sorted_eachEntry (hread : k.Steady read)
    (hkeeps : ∀ ms, IsSection value ms → k.KeepsSection ms)
    (h : eachEntry value place read = .ok records) :
    ∃ sorted, (∀ place, eachEntry value.sortMembers place read = .ok sorted) ∧
      k.Alike sorted records := by
  obtain ⟨ms, hsection⟩ := isSection_of_eachEntry h
  rw [hsection.eachEntry_eq] at h
  obtain ⟨g, rfl, hlists⟩ := exists_lists_of_eachEntry h
  obtain ⟨sorted, hsorted, hsame⟩ := hread.exists_sorted_section (hkeeps ms hsection) hlists
  refine ⟨sorted, fun place => ?_, hsame⟩
  rw [hsection.sorted.eachEntry_eq]
  exact hsorted place

theorem KeepsSection.put (hkeeps : k.KeepsSection ms)
    (hitems : (ms.lookup r.package).getD (.arr []) = .arr items) (hentry : k.KeepsEntry entry) :
    k.KeepsSection (ms.put r.package (.arr (items ++ [.obj entry]))) := by
  intro m hm all hall e he
  rcases mem_put hm with rfl | hm
  · obtain rfl : items ++ [.obj entry] = all := Json.arr.inj hall
    rcases List.mem_append.1 he with he | he
    · cases hlookup : ms.lookup r.package with
      | none =>
        rw [hlookup] at hitems
        obtain rfl : [] = items := Json.arr.inj hitems
        cases he
      | some v =>
        rw [hlookup] at hitems
        obtain ⟨before, after, rfl, _⟩ := List.lookup_eq_some_iff.1 hlookup
        exact hkeeps _ (List.mem_append_right before List.mem_cons_self) items hitems e he
    · obtain rfl : e = entry := Json.obj.inj (List.mem_singleton.1 he)
      exact hentry
  · exact hkeeps m hm all hall e he

/-- A section with an entry more, sorted: the record of the entry is behind those of its package. -/
theorem Steady.exists_appended (hread : k.Steady read) (hnodup : (ms.map Prod.fst).Nodup)
    (hkeeps : k.KeepsSection ms)
    (hitems : (ms.lookup r.package).getD (.arr []) = .arr items)
    (hentry : k.KeepsEntry entry) (hmakes : Reads read r.package entry r)
    (h : eachEntry (.obj ms) place read = .ok records) :
    ∃ sorted, (∀ place, eachEntry
        (Json.obj (ms.put r.package (.arr (items ++ [.obj entry])))).sortMembers place read =
          .ok sorted) ∧
      k.Alike sorted (records ++ [r]) := by
  obtain ⟨g, rfl, hlists⟩ := exists_lists_of_eachEntry h
  obtain ⟨g', hlists', hput⟩ := exists_lists_put hnodup hlists hitems hmakes
  obtain ⟨sorted, hsorted, hsame⟩ := hread.exists_sorted_section (hkeeps.put hitems hentry) hlists'
  refine ⟨sorted, fun place => ?_, fun p => ?_⟩
  · rw [Json.sortMembers_obj]
    exact hsorted place
  · rw [hsame, recordsOf_flatMap fun m hm => hread.package_of_lists (hlists' m hm), hput,
      recordsOf_append, recordsOf_flatMap fun m hm => hread.package_of_lists (hlists m hm),
      recordsOf_cons]
    simp only [eq_comm]
    rfl

/-- Whether what is regarded of an audits file stays the same when it is sorted. -/
structure KeepsFile (k : Regard) (file : Json.Members) : Prop where
  audits : ∀ ms, IsSection (field file "audits") ms → k.KeepsSection ms
  trusted : ∀ ms, IsSection (field file "trusted") ms → k.KeepsSection ms
  criteria : ∀ ms, IsSection (field file "criteria") ms → KeepsCriteria k ms

/-- An entry says the same when it is sorted if its texts are no mappings and its origins a list. -/
theorem keepsEntry_contents (hwho : (field entry "who").sortMembers = field entry "who")
    (hpublisher : (field entry "publisher").sortMembers = field entry "publisher")
    (horigins : ∀ ms, field entry "aggregated-from" ≠ .obj ms) : contents.KeepsEntry entry := by
  refine ⟨by rw [hwho], ?_, by rw [hpublisher]⟩
  cases hfield : field entry "aggregated-from" with
  | arr items =>
    have hempty : (items.map Json.sortMembers).isEmpty = items.isEmpty := by simp
    rw [Json.sortMembers_arr, Json.orElse, Json.orElse, Json.isGiven, Json.isGiven, hempty]
    split
    · show Except.ok ((items.map Json.sortMembers).map Json.sortMembers) =
        Except.ok (items.map Json.sortMembers)
      rw [List.map_map]
      exact congrArg Except.ok (List.map_congr_left fun v _ => Json.sortMembers_sortMembers v)
    · rfl
  | obj ms => exact absurd hfield (horigins ms)
  | null => simp [Json.sortMembers]
  | bool => simp [Json.sortMembers]
  | int => simp [Json.sortMembers]
  | decimal => simp [Json.sortMembers]
  | str => simp [Json.sortMembers]

theorem keepsEntry_essential (entry : Json.Members) : essential.KeepsEntry entry := by
  have hwho : ∀ v : Json, (Document.who v.sortMembers).map essential.who =
      (Document.who v).map essential.who := by
    intro v
    cases v with
    | arr => rw [Json.sortMembers_arr]; rfl
    | obj => rw [Json.sortMembers_obj]; rfl
    | null => simp [Json.sortMembers]
    | bool => simp [Json.sortMembers]
    | int => simp [Json.sortMembers]
    | decimal => simp [Json.sortMembers]
    | str => simp [Json.sortMembers]
  have horigins : ∀ v : Json, (parts v.sortMembers).map essential.origins =
      (parts v).map essential.origins := by
    intro v
    cases v with
    | arr => rw [Json.sortMembers_arr]; rfl
    | obj => rw [Json.sortMembers_obj]; rfl
    | null => simp [Json.sortMembers]
    | bool => simp [Json.sortMembers]
    | int => simp [Json.sortMembers]
    | decimal => simp [Json.sortMembers]
    | str => simp [Json.sortMembers]
  refine ⟨hwho _, ?_, rfl⟩
  have hnil : (Json.arr []).sortMembers = .arr [] := by simp [Json.sortMembers, Json.sortItems]
  rw [Json.orElse_sortMembers hnil]
  exact horigins _

/-- What verdicts depend on stays the same, whatever a file holds. -/
theorem keepsFile_essential (file : Json.Members) : essential.KeepsFile file :=
  ⟨fun _ _ _ _ _ _ e _ => keepsEntry_essential e, fun _ _ _ _ _ _ e _ => keepsEntry_essential e,
    fun _ _ _ _ _ _ => rfl⟩

end Regard

end Vetting
