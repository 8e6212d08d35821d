import Vetting.Proofs.AdoptedRecords
import Vetting.Proofs.AppendedAudit

/-! Imports of sorted documents. A foreign document makes the same local records when the members of
its objects are sorted, but for texts that are made of whole objects. -/

namespace Vetting

namespace Regard

variable {k : Regard} {l m : List AuditRecord} {f : AuditRecord → Option AuditRecord}

/-- Records that are alike are as many. -/
theorem Alike.length_eq (h : k.Alike l m) : l.length = m.length := by
  have hrecords : ∀ l : List AuditRecord, ∀ package,
      (l.map k.record).filter (fun r => decide (r.package = package)) =
        (recordsOf package l).map k.record := by
    intro l package
    rw [List.filter_map, recordsOf]
    refine congrArg (List.map k.record) (List.filter_congr fun r _ => ?_)
    rw [Function.comp, package_record]
  have hsorted : sortBy (fun r s => decide (r.package < s.package)) (l.map k.record) =
      sortBy (fun r s => decide (r.package < s.package)) (m.map k.record) := by
    refine eq_of_filter_key_eq (pairwise_sortBy_key AuditRecord.package _)
      (pairwise_sortBy_key AuditRecord.package _) fun package => ?_
    rw [filter_sortBy_key, filter_sortBy_key, hrecords, hrecords, h package]
  have hlength := congrArg List.length hsorted
  rwa [length_sortBy, length_sortBy, List.length_map, List.length_map] at hlength

theorem map_filterMap_congr (hlists : l.map k.record = m.map k.record)
    (hf : ∀ r s, k.record r = k.record s → (f r).map k.record = (f s).map k.record) :
    (l.filterMap f).map k.record = (m.filterMap f).map k.record := by
  induction l generalizing m with
  | nil =>
    obtain rfl : m = [] := by simpa using hlists.symm
    rfl
  | cons r rs ih =>
    cases m with
    | nil => cases hlists
    | cons s ss =>
      obtain ⟨hfirst, hrest⟩ := List.cons.inj hlists
      have hsame := hf r s hfirst
      rw [List.filterMap_cons, List.filterMap_cons]
      cases hr : f r with
      | none =>
        rw [hr] at hsame
        rw [Option.map_eq_none_iff.1 hsame.symm]
        exact ih hrest
      | some r' =>
        rw [hr] at hsame
        obtain ⟨s', hs, hs'⟩ := Option.map_eq_some_iff.1 hsame.symm
        rw [hs]
        simp only [List.map_cons, hs', ih hrest]

/-- What is made of records that are alike is alike, if it stays with their packages. -/
theorem Alike.filterMap (h : k.Alike l m) (hpackage : ∀ r s, f r = some s → s.package = r.package)
    (hf : ∀ r s, k.record r = k.record s → (f r).map k.record = (f s).map k.record) :
    k.Alike (l.filterMap f) (m.filterMap f) := by
  intro package
  rw [recordsOf, recordsOf, filter_filterMap_key hpackage, filter_filterMap_key hpackage]
  exact map_filterMap_congr (h package) hf

/-- Whether what is regarded of origins with one more is known from what is regarded of them. -/
def Collects (k : Regard) : Prop :=
  ∃ next : List Json → Json → List Json, ∀ l v, k.origins (l ++ [v]) = next (k.origins l) v

theorem collects_essential : essential.Collects := ⟨fun _ _ => [], fun _ _ => rfl⟩

theorem collects_contents : contents.Collects :=
  ⟨fun l v => l ++ [v.sortMembers], fun _ _ => List.map_append ..⟩

/-- Whether what is regarded of the records of a file stays the same when it is sorted. -/
structure KeepsRecords (k : Regard) (file : Json.Members) : Prop where
  audits : ∀ ms, Document.IsSection (Document.field file "audits") ms → k.KeepsSection ms
  trusted : ∀ ms, Document.IsSection (Document.field file "trusted") ms → k.KeepsSection ms

theorem keepsRecords_essential (file : Json.Members) : essential.KeepsRecords file :=
  ⟨(keepsFile_essential file).audits, (keepsFile_essential file).trusted⟩

end Regard

namespace ImportSource

open Document

variable {k : Regard} {source : ImportSource} {home foreign foreign' : CriteriaModel}
  {document : Json.Members} {criteria : NameSet} {records : List AuditRecord} {r s : AuditRecord}

/-- Foreign criteria that imply the same make the same of records. -/
theorem adopt?_congr (h : foreign'.SameAs k foreign) :
    source.adopt? foreign' home = source.adopt? foreign home := by
  have hexpand : foreign'.expand = foreign.expand := by
    funext s
    rw [CriteriaModel.expand, CriteriaModel.expand, funext h.closure_eq]
  have hclaimed : source.mapClaimed foreign' = source.mapClaimed foreign := by
    funext claimed
    simp only [mapClaimed, hexpand, h.decide_mem]
  have hmap : source.mapRecord foreign' home = source.mapRecord foreign home := by
    funext r
    simp only [mapRecord, hclaimed]
  have hdependencies : source.mapDependencies foreign' home =
      source.mapDependencies foreign home := by
    funext d
    simp only [mapDependencies, hclaimed]
  have hrelabel : source.relabel foreign' home = source.relabel foreign home := by
    funext criteria r
    cases r with
    | full => simp only [relabel, hdependencies]
    | delta => simp only [relabel, hdependencies]
    | exemption => simp only [relabel, hdependencies]
    | grant => rfl
    | violation => rfl
  funext r
  simp only [adopt?, hmap, hrelabel]

theorem mapRecord_record : source.mapRecord foreign home (k.record r) =
    source.mapRecord foreign home r := by
  cases r with
  | full => rfl
  | delta => rfl
  | exemption => rfl
  | grant => rfl
  | violation => rfl

/-- What is regarded of a relabelled record, made of what is regarded of the record. -/
def relabelRegarded (source : ImportSource) (next : List Json → Json → List Json)
    (foreign home : CriteriaModel) (criteria : NameSet) : AuditRecord → AuditRecord
  | .full a => .full { a with
      criteria, aggregatedFrom := next a.aggregatedFrom (.str source.name)
      dependencyCriteria := source.mapDependencies foreign home a.dependencyCriteria }
  | .delta a => .delta { a with
      criteria, aggregatedFrom := next a.aggregatedFrom (.str source.name)
      dependencyCriteria := source.mapDependencies foreign home a.dependencyCriteria }
  | .exemption e => .exemption { e with
      criteria
      dependencyCriteria := source.mapDependencies foreign home e.dependencyCriteria }
  | .grant g => .grant { g with
      criteria, aggregatedFrom := next g.aggregatedFrom (.str source.name) }
  | .violation v => .violation { v with
      criteria, aggregatedFrom := next v.aggregatedFrom (.str source.name) }

theorem record_relabel {next : List Json → Json → List Json}
    (hnext : ∀ l v, k.origins (l ++ [v]) = next (k.origins l) v) :
    k.record (source.relabel foreign home criteria r) =
      source.relabelRegarded next foreign home criteria (k.record r) := by
  cases r with
  | full => simp only [relabel, Regard.record, relabelRegarded, hnext]
  | delta => simp only [relabel, Regard.record, relabelRegarded, hnext]
  | exemption => rfl
  | grant => simp only [relabel, Regard.record, relabelRegarded, hnext]
  | violation => simp only [relabel, Regard.record, relabelRegarded, hnext]

theorem map_adopt?_congr (hk : k.Collects) (h : k.record r = k.record s) :
    (source.adopt? foreign home r).map k.record = (source.adopt? foreign home s).map k.record := by
  have hmap : source.mapRecord foreign home r = source.mapRecord foreign home s := by
    rw [← mapRecord_record (k := k), h, mapRecord_record]
  obtain ⟨next, hnext⟩ := hk
  rw [adopt?, adopt?, hmap]
  split
  · rfl
  · rw [Option.map_some, Option.map_some, record_relabel hnext, record_relabel hnext, h]

theorem package_of_adopt? (h : source.adopt? foreign home r = some s) : s.package = r.package := by
  obtain ⟨_, rfl⟩ := adopt?_eq_some_iff.1 h
  exact package_relabel

/-- A sorted foreign document has the same criteria. -/
theorem exists_foreignModel_sorted (h : source.foreignModel document = .ok foreign) :
    ∃ foreign', source.foreignModel (Json.sortEach document) = .ok foreign' ∧
      foreign'.SameAs .essential foreign := by
  obtain ⟨entries, hentries, h⟩ := bind_eq_ok h
  obtain ⟨sorted, hsorted, hperm⟩ := exists_criteriaEntries_sorted hentries
    (Regard.keepsFile_essential document).criteria
  have hmodel : modelOf entries = .ok foreign := by
    cases hof : modelOf entries with
    | ok m =>
      rw [hof] at h
      exact congrArg Except.ok (Except.ok.inj h)
    | error f =>
      rw [hof] at h
      cases h
  rw [← CriteriaModel.ofList_eq_ok_iff.1 hmodel] at hperm
  obtain ⟨n, hn, hsame⟩ := CriteriaModel.exists_ofList_reordered hperm
  refine ⟨n, ?_, hsame⟩
  rw [foreignModel, field_sortEach, hsorted, ok_bind, modelOf, hn]
  rfl

/-- A sorted foreign document makes the same records for all that is regarded. -/
theorem exists_auditRecords_sorted {place : String} (hkeeps : k.KeepsRecords document)
    (h : auditRecords document place = .ok records) :
    ∃ sorted, (∀ place, auditRecords (Json.sortEach document) place = .ok sorted) ∧
      k.Alike sorted records := by
  obtain ⟨audits, haudits, h⟩ := bind_eq_ok h
  obtain ⟨grants, hgrants, h⟩ := bind_eq_ok h
  obtain rfl := Except.ok.inj h
  obtain ⟨audits', haudits', hsameaudits⟩ :=
    Regard.steady_auditEntry.exists_sorted_eachEntry hkeeps.audits haudits
  obtain ⟨grants', hgrants', hsamegrants⟩ :=
    Regard.steady_grantEntry.exists_sorted_eachEntry hkeeps.trusted hgrants
  refine ⟨audits' ++ grants', fun place => ?_, hsameaudits.append hsamegrants⟩
  rw [auditRecords, field_sortEach, field_sortEach, haudits', ok_bind, hgrants']
  rfl

/-- What is adopted of a sorted document is alike what is adopted of the document. -/
theorem exists_adopt_sorted (hk : k.Collects) (hkeeps : k.KeepsRecords document)
    (h : (source.adopt document home).outcome = .ok records) :
    ∃ sorted, (source.adopt (Json.sortEach document) home).outcome = .ok sorted ∧
      k.Alike sorted records := by
  obtain ⟨foreign, theirs, hadopts⟩ := exists_adopts h
  obtain ⟨foreign', hforeign', hsame⟩ := exists_foreignModel_sorted hadopts.model_eq
  obtain ⟨theirs', htheirs', halike⟩ := exists_auditRecords_sorted hkeeps hadopts.theirs_eq
  refine ⟨(theirs'.filter fun r => decide (r.package ∉ source.exclude)).filterMap
    (source.adopt? foreign home), ?_, ?_⟩
  · rw [outcome_adopt, hforeign', ok_bind, htheirs', adopt?_congr hsame]
    rfl
  · rw [hadopts.records_eq, List.filterMap_filter, List.filterMap_filter]
    refine halike.filterMap (fun r s hs => ?_) fun r s hrs => ?_
    · split at hs
      · exact package_of_adopt? hs
      · cases hs
    · have hpackage : r.package = s.package := by
        rw [← Regard.package_record (k := k), hrs, Regard.package_record]
      rw [hpackage]
      split
      · exact map_adopt?_congr hk hrs
      · rfl

end ImportSource

end Vetting
