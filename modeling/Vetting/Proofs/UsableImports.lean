import Vetting.Proofs.AdoptedRecords
import Vetting.Proofs.AppendedAudit

/-! Imports that can be used. Each foreign record is either dropped with a warning or adopted, with
local criteria in place of its own and the import among its origins, and otherwise as it was. A store
of adopted records refuses none of them but changes from a version to itself. -/

namespace Vetting

theorem Logged.warnings_bind {α β : Type} {x : Logged α} {f : α → Logged β} {a : α}
    (h : x.outcome = .ok a) : (x >>= f).warnings = x.warnings ++ (f a).warnings := by
  obtain ⟨outcome, warnings⟩ := x
  obtain rfl : outcome = .ok a := h
  rfl

namespace AuditRecord

/-- A record with other criteria, origins and criteria of dependencies, as far as it has any. -/
def revised (criteria : NameSet) (origins : List Json) (dependencies : DependencyCriteria) :
    AuditRecord → AuditRecord
  | full a => full { a with
      criteria, aggregatedFrom := origins, dependencyCriteria := dependencies }
  | delta a => delta { a with
      criteria, aggregatedFrom := origins, dependencyCriteria := dependencies }
  | exemption e => exemption { e with criteria, dependencyCriteria := dependencies }
  | grant g => grant { g with criteria, aggregatedFrom := origins }
  | violation v => violation { v with criteria, aggregatedFrom := origins }

/-- What a foreign record is about: what it denies by name, or all that it stands for. -/
def means (foreign : CriteriaModel) : AuditRecord → NameSet
  | violation v => v.criteria
  | r => foreign.expandKnown r.criteria

/-- A record in its place, with known criteria, can only be at fault for leading nowhere. -/
theorem fault?_eq_ite {m : CriteriaModel} {r : AuditRecord} {filed : String}
    (hfiled : r.package = filed) (hsome : ∃ c, c ∈ r.criteria) (hknown : ∀ c ∈ r.criteria, c ∈ m)
    (hdependency : r.dependencyFault? m = none) :
    r.fault? m filed = if r.isLoop then some .identicalEndpoints else none := by
  have hempty : r.criteria.isEmpty = false := NameSet.isEmpty_eq_false_iff.2 hsome
  have hunknown : (m.unknownIn r.criteria).isEmpty = true := isEmpty_unknownIn_iff.2 hknown
  rw [fault?, if_neg (not_not.2 hfiled), hempty, hunknown, hdependency]
  rfl

end AuditRecord

namespace Document

variable {β : Type} {read : String → Json.Members → String → Read β} {value : Json}
  {file : Json.Members} {place : String} {made : List β} {records : List AuditRecord} {b : β}
  {r : AuditRecord}

theorem exists_read_of_mem_eachEntry [Inhabited β] (h : eachEntry value place read = .ok made)
    (hb : b ∈ made) : ∃ package entry place, read package entry place = .ok b := by
  obtain ⟨sections, _, h⟩ := bind_eq_ok h
  obtain ⟨lists, hlists, h⟩ := bind_eq_ok h
  cases h
  obtain ⟨f, rfl, hf⟩ := exists_map_of_mapM_eq_ok hlists
  obtain ⟨l, hl, hbl⟩ := List.mem_flatten.1 hb
  obtain ⟨s, hs, rfl⟩ := List.mem_map.1 hl
  obtain ⟨g, hg, hread⟩ := exists_map_of_mapM_eq_ok (hf s hs)
  rw [hg] at hbl
  obtain ⟨c, hc, rfl⟩ := List.mem_map.1 hbl
  exact ⟨_, _, _, hread c hc⟩

/-- Audits files hold no exemptions. -/
theorem exemption?_of_mem_auditRecords (h : auditRecords file place = .ok records)
    (hr : r ∈ records) : r.exemption? = none := by
  obtain ⟨audits, haudits, h⟩ := bind_eq_ok h
  obtain ⟨grants, hgrants, h⟩ := bind_eq_ok h
  cases h
  rcases List.mem_append.1 hr with hr | hr
  · obtain ⟨_, _, _, hread⟩ := exists_read_of_mem_eachEntry haudits hr
    obtain ⟨_, _, _, _, _, _, _, _, hmakes⟩ := auditEntry_eq_ok_iff.1 hread
    generalize kindFields _ = fields at hmakes
    cases hmakes with
    | full => rfl
    | delta => rfl
    | violation => rfl
  · obtain ⟨_, _, _, hread⟩ := exists_read_of_mem_eachEntry hgrants hr
    obtain ⟨_, _, _, _, _, _, _, rfl⟩ := grantEntry_eq_ok_iff.1 hread
    rfl

end Document

namespace ImportSource

variable {source : ImportSource} {foreign home : CriteriaModel} {theirs criteria : NameSet}
  {document : Json.Members} {records : List AuditRecord} {r s : AuditRecord} {c dependency : String}
  {d : DependencyCriteria}

/-- Whether foreign criteria become a local one: it is built in and one of them, or they have all
that one of the mappings to it asks for. -/
def Translates (source : ImportSource) (home : CriteriaModel) (theirs : NameSet) (c : String) :
    Prop :=
  c ∈ home ∧ (isBuiltin c = true ∧ c ∈ theirs ∨
    ∃ m ∈ source.criteriaMap, m.ours = c ∧ m.Covered theirs)

/-- Whether a foreign record is about any local criterion. -/
def Concerns (source : ImportSource) (foreign home : CriteriaModel) (r : AuditRecord) : Prop :=
  ∃ c, source.Translates home (r.means foreign) c

/-- Whether a local record is what becomes of a foreign one: about what its criteria become, with
the import behind its origins and the same of its dependencies, and the same in all else. -/
structure Becomes (source : ImportSource) (foreign home : CriteriaModel) (r s : AuditRecord) :
    Prop where
  revised_eq : s = r.revised s.criteria s.aggregatedFrom s.dependencyCriteria
  aggregatedFrom_eq : s.aggregatedFrom = r.aggregatedFrom ++ [.str source.name]
  mem_criteria : ∀ c, c ∈ s.criteria ↔ source.Translates home (r.means foreign) c
  dependency_iff : ∀ dependency names, s.dependencyCriteria.get? dependency = some names ↔
    (∃ c, c ∈ names) ∧ ∃ theirs, r.dependencyCriteria.get? dependency = some theirs ∧
      ∀ c, c ∈ names ↔ source.Translates home (foreign.expandKnown theirs) c

theorem mem_filter_mapClaimed :
    c ∈ (source.mapClaimed foreign theirs).filter (fun c => decide (c ∈ home)) ↔
      source.Translates home (foreign.expandKnown theirs) c := by
  rw [NameSet.mem_filter, decide_eq_true_eq, mem_mapClaimed, and_comm]
  rfl

theorem mem_mapRecord :
    c ∈ source.mapRecord foreign home r ↔ source.Translates home (r.means foreign) c := by
  cases r with
  | violation v =>
    change c ∈ (source.mapDenied v.criteria).filter _ ↔ _
    rw [NameSet.mem_filter, decide_eq_true_eq, mem_mapDenied, and_comm]
    rfl
  | _ => exact mem_filter_mapClaimed

theorem concerns_iff :
    source.Concerns foreign home r ↔ (source.mapRecord foreign home r).isEmpty = false := by
  rw [NameSet.isEmpty_eq_false_iff]
  exact exists_congr fun c => mem_mapRecord.symm

instance : DecidablePred (source.Concerns foreign home) := fun _ => decidable_of_iff _ concerns_iff.symm

theorem decide_concerns :
    decide (source.Concerns foreign home r) = !(source.mapRecord foreign home r).isEmpty := by
  rw [Bool.eq_iff_iff, decide_eq_true_eq, concerns_iff, Bool.not_eq_true']

theorem get?_mapDependencies : (source.mapDependencies foreign home d).get? dependency =
    ((d.get? dependency).map fun theirs =>
      (source.mapClaimed foreign theirs).filter fun c => decide (c ∈ home)).filter
        fun names => !names.isEmpty := by
  let translate (asked : String × NameSet) : Option (String × NameSet) :=
    let names := (source.mapClaimed foreign asked.2).filter fun c => decide (c ∈ home)
    if names.isEmpty then none else some (asked.1, names)
  have hname : ∀ asked f, translate asked = some f → f.1 = asked.1 := by
    intro asked f h
    dsimp only [translate] at h
    split at h
    · cases h
    · cases h
      rfl
  have hget : d.get? dependency = d.entries.lookup dependency := rfl
  -- No dependency is named twice, so what is found under its name comes from one entry only.
  have hmap : source.mapDependencies foreign home d = .ofList (d.entries.filterMap translate) := rfl
  rw [hmap, NameMap.get?_ofList, filter_filterMap_key hname, filter_name_of_nodup d.nodup_entries,
    hget]
  cases d.entries.lookup dependency with
  | none => rfl
  | some theirs =>
    rw [Option.map_some, Option.filter_some]
    change ([(dependency, theirs)].filterMap translate).getLast?.map Prod.snd = _
    cases hempty : ((source.mapClaimed foreign theirs).filter fun c => decide (c ∈ home)).isEmpty with
    | true => simp [translate, hempty]
    | false => simp [translate, hempty]

/-- What is asked of a dependency becomes what is asked of it here, if it becomes anything. -/
theorem get?_mapDependencies_eq_some_iff {names : NameSet} :
    (source.mapDependencies foreign home d).get? dependency = some names ↔
      (∃ c, c ∈ names) ∧ ∃ theirs, d.get? dependency = some theirs ∧
        ∀ c, c ∈ names ↔ source.Translates home (foreign.expandKnown theirs) c := by
  rw [get?_mapDependencies, Option.filter_eq_some_iff, Bool.not_eq_true',
    NameSet.isEmpty_eq_false_iff, and_comm, Option.map_eq_some_iff]
  refine and_congr_right fun _ => exists_congr fun theirs => and_congr_right fun _ => ?_
  constructor
  · rintro rfl c
    exact mem_filter_mapClaimed
  · intro hnames
    exact NameSet.ext fun c => mem_filter_mapClaimed.trans (hnames c).symm

theorem becomes_relabel (h : r.exemption? = none) :
    source.Becomes foreign home r
      (source.relabel foreign home (source.mapRecord foreign home r) r) := by
  have hcriteria : (source.relabel foreign home (source.mapRecord foreign home r) r).criteria =
      source.mapRecord foreign home r := criteria_relabel
  have hdependencies : ∀ criteria, (source.relabel foreign home criteria r).dependencyCriteria =
      source.mapDependencies foreign home r.dependencyCriteria := by
    intro criteria
    cases r <;> rfl
  refine ⟨?_, ?_, fun c => ?_, fun dependency names => ?_⟩
  · rw [hcriteria]
    cases r <;> rfl
  · cases r with
    | exemption e => cases h
    | _ => rfl
  · rw [hcriteria]
    exact mem_mapRecord
  · rw [hdependencies]
    exact get?_mapDependencies_eq_some_iff

theorem filterMap_adopt? (theirs : List AuditRecord) : theirs.filterMap (source.adopt? foreign home) =
    (theirs.filter fun r => decide (source.Concerns foreign home r)).map fun r =>
      source.relabel foreign home (source.mapRecord foreign home r) r := by
  induction theirs with
  | nil => rfl
  | cons r rs ih =>
    rw [List.filterMap_cons, List.filter_cons, adopt?, decide_concerns, ih]
    cases (source.mapRecord foreign home r).isEmpty with
    | true => rfl
    | false => rfl

theorem isNone_adopt? : (source.adopt? foreign home r).isNone =
    decide (¬source.Concerns foreign home r) := by
  rw [adopt?, decide_not, decide_concerns]
  cases (source.mapRecord foreign home r).isEmpty with
  | true => rfl
  | false => rfl

/-- An adopted record is only ever refused for being a change from a version to itself. -/
theorem fault?_adopted (h : source.Concerns foreign home r) :
    let s := source.relabel foreign home (source.mapRecord foreign home r) r
    s.fault? home s.package = if s.isLoop then some .identicalEndpoints else none := by
  intro s
  have hcriteria : s.criteria = source.mapRecord foreign home r := criteria_relabel
  refine AuditRecord.fault?_eq_ite rfl ?_ (fun c hc => ?_) dependencyFault?_relabel
  · rw [hcriteria]
    exact NameSet.isEmpty_eq_false_iff.1 (concerns_iff.1 h)
  · rw [hcriteria] at hc
    exact (mem_mapRecord.1 hc).1

/-- Every record that is left out is warned about once, and there is no other warning. -/
theorem warnings_adopt {theirs : List AuditRecord}
    (h : source.Adopts document home foreign theirs records) :
    (source.adopt document home).warnings =
      ((theirs.filter fun r => decide (r.package ∉ source.exclude)).filter fun r =>
        decide (¬source.Concerns foreign home r)).map fun r => .dropped r source.name := by
  have hrecords : source.foreignRecords document =
      .ok (theirs.filter fun r => decide (r.package ∉ source.exclude)) := by
    rw [foreignRecords, h.theirs_eq]
    rfl
  have hdropped : ∀ l : List AuditRecord, (l.filter fun r => (source.adopt? foreign home r).isNone) =
      l.filter fun r => decide (¬source.Concerns foreign home r) :=
    fun l => List.filter_congr fun r _ => isNone_adopt?
  rw [adopt, Logged.warnings_bind (a := foreign) h.model_eq, Logged.warnings_bind hrecords,
    Logged.warnings_bind (a := ()) rfl, hdropped]
  exact List.append_nil _

/-- What a store of adopted records accepts and refuses. -/
theorem ofRecords_adopted (h : ∀ s ∈ records,
      s.fault? home s.package = if s.isLoop then some .identicalEndpoints else none) :
    (AuditStore.ofRecords home records).accepted = records.filter (fun s => !s.isLoop) ∧
      ∀ x ∈ (AuditStore.ofRecords home records).rejected,
        x.record ∈ records ∧ x.record.isLoop = true ∧ x.fault = .identicalEndpoints := by
  constructor
  · rw [AuditStore.accepted_ofRecords]
    refine List.filter_congr fun s hs => ?_
    rw [h s hs]
    cases s.isLoop with
    | true => rfl
    | false => rfl
  · intro x hx
    obtain ⟨f, hf, hx⟩ := List.mem_filterMap.1 hx
    obtain ⟨s, hs, rfl⟩ := List.mem_map.1 (mem_sortBy.1 hf)
    obtain ⟨fault, hfault, rfl⟩ := Option.map_eq_some_iff.1 hx
    rw [h s hs] at hfault
    split at hfault
    · next hloop => exact ⟨hs, hloop, (Option.some.inj hfault).symm⟩
    · cases hfault

/-- Whether an import loses nothing of foreign records and makes nothing of them that cannot be used:
of each that is of no excluded package it makes one, in order, or gives a warning, and whoever builds
a store of what it made finds only changes from a version to itself refused. -/
structure Delivers (source : ImportSource) (document : Json.Members) (foreign home : CriteriaModel)
    (theirs records : List AuditRecord) : Prop where
  becomes : List.Forall₂ (source.Becomes foreign home)
    ((theirs.filter fun r => decide (r.package ∉ source.exclude)).filter fun r =>
      decide (source.Concerns foreign home r)) records
  warnings_eq : (source.adopt document home).warnings =
    ((theirs.filter fun r => decide (r.package ∉ source.exclude)).filter fun r =>
      decide (¬source.Concerns foreign home r)).map fun r => .dropped r source.name
  fault?_eq : ∀ s ∈ records,
    s.fault? home s.package = if s.isLoop then some .identicalEndpoints else none
  accepted_eq : (AuditStore.ofRecords home records).accepted = records.filter fun s => !s.isLoop
  of_rejected : ∀ x ∈ (AuditStore.ofRecords home records).rejected,
    x.record ∈ records ∧ x.record.isLoop = true ∧ x.fault = .identicalEndpoints

theorem Adopts.delivers {theirs : List AuditRecord}
    (h : source.Adopts document home foreign theirs records) :
    source.Delivers document foreign home theirs records := by
  have hrecords := h.records_eq.trans (filterMap_adopt? _)
  have hfault : ∀ s ∈ records,
      s.fault? home s.package = if s.isLoop then some .identicalEndpoints else none := by
    intro s hs
    rw [hrecords] at hs
    obtain ⟨r, hr, rfl⟩ := List.mem_map.1 hs
    exact fault?_adopted (of_decide_eq_true (List.mem_filter.1 hr).2)
  obtain ⟨haccepted, hrejected⟩ := ofRecords_adopted hfault
  refine ⟨?_, warnings_adopt h, hfault, haccepted, hrejected⟩
  rw [hrecords, List.forall₂_map_right_iff, List.forall₂_same]
  intro r hr
  have hread : r ∈ theirs := (List.mem_filter.1 (List.mem_filter.1 hr).1).1
  exact becomes_relabel (Document.exemption?_of_mem_auditRecords h.theirs_eq hread)

/-- An import that succeeds has read foreign criteria and records. It loses none of those of packages
that are not excluded without a warning, and what it makes of them can be used with local criteria. -/
theorem adopt_delivers (h : (source.adopt document home).outcome = .ok records) :
    ∃ foreign theirs, source.foreignModel document = .ok foreign ∧
      Document.auditRecords document source.place = .ok theirs ∧
        source.Delivers document foreign home theirs records := by
  obtain ⟨foreign, theirs, hadopts⟩ := exists_adopts h
  exact ⟨foreign, theirs, hadopts.model_eq, hadopts.theirs_eq, hadopts.delivers⟩

/-- A source of which one package is left out, with a mapping to a criterion that may not exist. -/
def partner : ImportSource where
  name := "partner"
  url := "https://partner.example/audits.yaml"
  exclude := .single "left"
  criteriaMap := [⟨"trusted", .single "reviewed"⟩, ⟨"certified", .single "reviewed"⟩]

/-- Reviews one of which asks a dependency for criteria that have no local name, a change that leads
nowhere, a review for such criteria only, and one of a package that is left out. -/
def shared : Json.Members :=
  [("criteria", .obj [("private", .obj []), ("reviewed", .obj [("implies", .str "safe-to-run")])]),
    ("audits", .obj [
      ("pad", .arr [
        .obj [("version", .str "1.0.0"), ("criteria", .str "reviewed"),
          ("aggregated-from", .arr [.str "upstream"]),
          ("dependency-criteria", .obj [("base", .str "reviewed"), ("extra", .str "private")])],
        .obj [("delta", .str "1.0.0 -> 1.0.0"), ("criteria", .str "safe-to-run")],
        .obj [("version", .str "1.1.0"), ("criteria", .str "private")]]),
      ("left", .arr [.obj [("version", .str "1.0.0"), ("criteria", .str "reviewed")]])])]

theorem adopt_delivers_shared :
    ∃ home records, "certified" ∉ home ∧ (partner.adopt shared home).outcome = .ok records ∧
      records.length = 2 ∧ (AuditStore.ofRecords home records).rejected.length = 1 ∧
        ∃ foreign theirs, partner.foreignModel shared = .ok foreign ∧
          Document.auditRecords shared partner.place = .ok theirs ∧
            partner.Delivers shared foreign home theirs records := by
  let home : CriteriaModel := ⟨[{ name := "trusted" }], by decide +kernel⟩
  obtain ⟨records, hrecords, hcount⟩ : ∃ records,
      (partner.adopt shared home).outcome = .ok records ∧
        decide (records.length = 2 ∧ (AuditStore.ofRecords home records).rejected.length = 1) = true :=
    exists_ok_of_any (by decide +kernel)
  obtain ⟨hmade, hrefused⟩ := of_decide_eq_true hcount
  exact ⟨home, records, by decide +kernel, hrecords, hmade, hrefused, adopt_delivers hrecords⟩

end ImportSource

end Vetting
