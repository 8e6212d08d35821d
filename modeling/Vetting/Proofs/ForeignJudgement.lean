import Vetting.Proofs.AdoptedRecords

/-! What an import keeps of the foreign judgement. Built-in criteria mean the same on both sides. A
criterion that foreign ones are mapped to is granted by what they stand for, but denied by name. -/

namespace Vetting

theorem AuditStore.accepted_of_rejected_eq_nil {model : CriteriaModel} {records : List AuditRecord}
    (h : (ofRecords model records).rejected = []) :
    (ofRecords model records).accepted = records := by
  rw [accepted_ofRecords, List.filter_eq_self]
  intro r hr
  have hfiled : (r.package, r) ∈ sortBy (fun a b => decide (a.1 < b.1))
      (records.map fun r => (r.package, r)) := mem_sortBy.2 (List.mem_map_of_mem hr)
  have hnone : reject? model (r.package, r) = none := List.filterMap_eq_nil_iff.1 h _ hfiled
  exact Option.isNone_iff_eq_none.2 (Option.map_eq_none_iff.1 hnone)

namespace ImportSource

variable {source : ImportSource} {foreign home : CriteriaModel} {m : CriteriaMapping}
  {document : Json.Members} {theirs records : List AuditRecord} {denied : NameSet}
  {mode : ExemptionMode} {id : PackageId} {c : String}

/-- Whether a custom local criterion is granted by one mapping and by nothing else. -/
structure SoleGrant (source : ImportSource) (home : CriteriaModel) (m : CriteriaMapping) :
    Prop where
  mem : m ∈ source.criteriaMap
  custom : m.ours ∈ home.customNames
  unimplied : ∀ d ∈ home, m.ours ∈ home.closure d → d = m.ours
  untargeted : ∀ n ∈ source.criteriaMap, n.ours = m.ours → n = m

/-- Whether denied foreign criteria deny a local one by their names alone: it implies a built-in one
of them, or a criterion that a mapping grants for nothing but them. -/
def Denies (source : ImportSource) (home : CriteriaModel) (denied : NameSet) (c : String) : Prop :=
  (∃ b ∈ denied, isBuiltin b = true ∧ b ∈ home.closure c) ∨
    ∃ n ∈ source.criteriaMap, n.ours ∈ home.closure c ∧ n.Covered denied

theorem denies_iff : source.Denies home denied c ↔
    ∃ d ∈ source.mapDenied denied, d ∈ home.closure c := by
  constructor
  · intro hx
    rcases hx with ⟨b, hb, hbuiltin, hbc⟩ | ⟨n, hn, hnc, hcovered⟩
    · exact ⟨b, mem_mapDenied.2 (.inl ⟨hbuiltin, hb⟩), hbc⟩
    · exact ⟨n.ours, mem_mapDenied.2 (.inr ⟨n, hn, rfl, hcovered⟩), hnc⟩
  · intro hx
    obtain ⟨d, hd, hdc⟩ := hx
    rcases mem_mapDenied.1 hd with ⟨hbuiltin, hb⟩ | ⟨n, hn, rfl, hcovered⟩
    · exact .inl ⟨d, hb, hbuiltin, hdc⟩
    · exact .inr ⟨n, hn, hdc, hcovered⟩

theorem SoleGrant.known (h : source.SoleGrant home m) :
    m.ours ∈ home ∧ isBuiltin m.ours = false := by
  obtain ⟨e, he, hname⟩ := List.mem_map.1 (NameSet.mem_ofList.1 h.custom)
  rw [← hname]
  constructor
  · exact CriteriaModel.mem_iff.2 ⟨e, List.mem_append_right _ he, rfl⟩
  · exact ((CriteriaModel.nodup_of_nameFault? home.faults_eq_none.1).2 e he).1

/-- A foreign record claims the criterion by claiming what is mapped to it. -/
theorem SoleGrant.claims_iff (h : source.SoleGrant home m) {package : String} {r : AuditRecord} :
    source.Claims foreign home mode package m.ours r ↔ r.package = package ∧
      mode.admits r = true ∧ m.Covered (foreign.expandKnown r.criteria) := by
  constructor
  · intro hx
    obtain ⟨hfiled, hadmitted, d, hd, hhome, hours⟩ := hx
    obtain rfl := h.unimplied d hhome hours
    refine ⟨hfiled, hadmitted, ?_⟩
    rcases mem_mapClaimed.1 hd with ⟨hbuiltin, _⟩ | ⟨n, hn, hname, hcovered⟩
    · rw [h.known.2] at hbuiltin
      cases hbuiltin
    · rwa [h.untargeted n hn hname] at hcovered
  · intro hx
    obtain ⟨hfiled, hadmitted, hcovered⟩ := hx
    have hclaimed : m.ours ∈ source.mapClaimed foreign r.criteria :=
      mem_mapClaimed.2 (.inr ⟨m, h.mem, rfl, hcovered⟩)
    exact ⟨hfiled, hadmitted, m.ours, hclaimed, h.known.1, home.self_mem_closure m.ours⟩

/-- Whether foreign records grant a version what one mapping is for: each of those that lead there
claims all that is mapped to it, and no violation denies it by name. -/
structure Grants (source : ImportSource) (foreign home : CriteriaModel) (theirs : List AuditRecord)
    (mode : ExemptionMode) (m : CriteriaMapping) (id : PackageId) : Prop where
  undenied : ∀ w, .violation w ∈ theirs → w.package = id.package →
    w.versions.contains id.version.toRelease = true → ¬source.Denies home w.criteria m.ours
  reached : Reached (fun r => r ∈ theirs ∧ r.package = id.package ∧ mode.admits r = true ∧
    m.Covered (foreign.expandKnown r.criteria)) id.version.toRelease

theorem Adopts.mem_satisfied_iff_grants [SetOrder]
    (h : source.Adopts document home foreign theirs records)
    (hm : source.SoleGrant home m) (hid : id.package ∉ source.exclude) :
    m.ours ∈ (AuditStore.ofRecords home records).satisfied mode id ↔
      source.Grants foreign home theirs mode m id := by
  rw [h.mem_satisfied_iff hid hm.known.1]
  simp only [← denies_iff, hm.claims_iff]
  constructor
  · intro hx
    exact ⟨hx.1, hx.2⟩
  · intro hx
    exact ⟨hx.undenied, hx.reached⟩

/-- An import grants a criterion of one mapping exactly where the foreign records do. -/
theorem adopt_grants_unless_denied [SetOrder]
    (h : (source.adopt document home).outcome = .ok records)
    (hm : source.SoleGrant home m) (hid : id.package ∉ source.exclude) (mode : ExemptionMode) :
    ∃ foreign theirs, source.Adopts document home foreign theirs records ∧
      (m.ours ∈ (AuditStore.ofRecords home records).satisfied mode id ↔
        source.Grants foreign home theirs mode m id) ∧
      ∀ w, .violation w ∈ theirs → w.package = id.package →
        w.versions.contains id.version.toRelease = true → (∀ t ∈ m.theirs, t ∈ w.criteria) →
          m.ours ∉ (AuditStore.ofRecords home records).satisfied mode id := by
  obtain ⟨foreign, theirs, hadopts⟩ := exists_adopts h
  have hiff : m.ours ∈ (AuditStore.ofRecords home records).satisfied mode id ↔
      source.Grants foreign home theirs mode m id := hadopts.mem_satisfied_iff_grants hm hid
  refine ⟨foreign, theirs, hadopts, hiff, fun w hw hfiled hrange hall hsatisfied => ?_⟩
  obtain ⟨hfree, hreached⟩ := hiff.1 hsatisfied
  obtain ⟨r, _, _, _, hsome, _⟩ := hreached.exists_counts
  exact hfree w hw hfiled hrange (.inr ⟨m, hm.mem, home.self_mem_closure m.ours, hsome, hall⟩)

def reviews : CriteriaMapping := ⟨"trusted", .single "reviewed"⟩

/-- A foreign database whose reviews are trusted. -/
def mirror : ImportSource where
  name := "mirror"
  url := "https://mirror.example/audits.yaml"
  criteriaMap := [reviews]

def trusting : CriteriaModel := ⟨[{ name := "trusted" }], by decide +kernel⟩

/-- A package that was reviewed, which is to say that it is licensed, and later found not to be. -/
def mirrored : Json.Members :=
  [("criteria", .obj [("licensed", .obj []), ("reviewed", .obj [("implies", .str "licensed")])]),
    ("audits", .obj [("pad", .arr [
      .obj [("version", .str "1.0.0"), ("criteria", .arr [.str "reviewed", .str "safe-to-deploy"])],
      .obj [("delta", .str "1.0.0 -> 1.1.0"), ("criteria", .str "safe-to-run")],
      .obj [("violation", .str ">=1.0.0"), ("criteria", .str "licensed")]])])]

def firstPad : PackageId := ⟨"pad", { major := 1, minor := 0, patch := 0 }⟩

theorem soleGrant_mirror : mirror.SoleGrant trusting reviews where
  mem := List.mem_cons_self ..
  custom := by decide +kernel
  unimplied := by
    have hnames : ∀ d ∈ trusting.names.toList, "trusted" ∈ trusting.closure d → d = "trusted" := by
      decide +kernel
    exact hnames
  untargeted := fun _ hn _ => List.mem_singleton.1 hn

theorem exists_mirrored : ∃ records, (mirror.adopt mirrored trusting).outcome = .ok records ∧
    reviews.ours ∈ (AuditStore.ofRecords trusting records).satisfied .deny firstPad := by
  obtain ⟨records, hrecords, hsatisfied⟩ : ∃ records,
      (mirror.adopt mirrored trusting).outcome = .ok records ∧
        decide (reviews.ours ∈ (AuditStore.ofRecords trusting records).satisfied .deny firstPad) =
          true := exists_ok_of_any (by decide +kernel)
  exact ⟨records, hrecords, of_decide_eq_true hsatisfied⟩

theorem adopt_grants_unless_denied_mirror :
    ∃ records, (mirror.adopt mirrored trusting).outcome = .ok records ∧
      mirror.SoleGrant trusting reviews ∧ firstPad.package ∉ mirror.exclude ∧
      ∃ foreign theirs, mirror.Adopts mirrored trusting foreign theirs records ∧
        (reviews.ours ∈ (AuditStore.ofRecords trusting records).satisfied .deny firstPad ↔
          mirror.Grants foreign trusting theirs .deny reviews firstPad) ∧
        ∀ w, .violation w ∈ theirs → w.package = firstPad.package →
          w.versions.contains firstPad.version.toRelease = true →
            (∀ t ∈ reviews.theirs, t ∈ w.criteria) →
              reviews.ours ∉ (AuditStore.ofRecords trusting records).satisfied .deny firstPad := by
  obtain ⟨records, hrecords, _⟩ := exists_mirrored
  have hkept : firstPad.package ∉ mirror.exclude := by decide +kernel
  exact ⟨records, hrecords, soleGrant_mirror, hkept,
    adopt_grants_unless_denied hrecords soleGrant_mirror hkept .deny⟩

/-- A foreign violation of what a review implies vetoes the review there, and is lost on the local
criterion that the review is trusted for. -/
theorem exists_foreign_veto_left_behind :
    ∃ (source : ImportSource) (document : Json.Members) (home foreign : CriteriaModel)
      (theirs records : List AuditRecord) (m : CriteriaMapping) (w : Violation) (id : PackageId),
      source.Adopts document home foreign theirs records ∧ source.SoleGrant home m ∧
        id.package ∉ source.exclude ∧ .violation w ∈ theirs ∧ w.package = id.package ∧
        w.versions.contains id.version.toRelease = true ∧
        (∃ t ∈ m.theirs, ∃ d ∈ w.criteria, d ∈ foreign.closure t) ∧
        m.ours ∈ (AuditStore.ofRecords home records).satisfied .deny id := by
  have hmodel : ∃ foreign, mirror.foreignModel mirrored = .ok foreign ∧
      ((Document.auditRecords mirrored mirror.place).toOption.any fun theirs => theirs.any
        (AuditRecord.denies foreign "pad" firstPad.version.toRelease "reviewed")) = true :=
    exists_ok_of_any (by decide +kernel)
  obtain ⟨records, hrecords, hsatisfied⟩ := exists_mirrored
  obtain ⟨foreign, hforeign, hany⟩ := hmodel
  obtain ⟨theirs, htheirs, hany⟩ := exists_ok_of_any hany
  obtain ⟨r, hr, hdenies⟩ := List.any_eq_true.1 hany
  cases r with
  | violation w =>
    obtain ⟨hfiled, hrange, hdenied⟩ := AuditRecord.denies_violation_iff.1 hdenies
    exact ⟨mirror, mirrored, trusting, foreign, theirs, records, reviews, w, firstPad,
      ⟨hforeign, htheirs, hrecords⟩, soleGrant_mirror, by decide +kernel, hr, hfiled, hrange,
      ⟨"reviewed", NameSet.mem_single.2 rfl, hdenied⟩, hsatisfied⟩
  | _ => cases hdenies

/-- What an import asks of its mappings to leave the built-in criteria to themselves. -/
def SparesBuiltins (source : ImportSource) (home : CriteriaModel) : Prop :=
  ∀ m ∈ source.criteriaMap, ∀ b ∈ home.closure m.ours, isBuiltin b = false

instance : Decidable (source.SparesBuiltins home) :=
  inferInstanceAs (Decidable (∀ m ∈ source.criteriaMap, ∀ b ∈ (home.closure m.ours).toList, _))

theorem SparesBuiltins.claims_iff (h : source.SparesBuiltins home) (hc : isBuiltin c = true)
    {package : String} {r : AuditRecord} : source.Claims foreign home mode package c r ↔
      r.package = package ∧ mode.admits r = true ∧ ∃ d ∈ r.criteria, c ∈ foreign.closure d := by
  constructor
  · intro hx
    obtain ⟨hfiled, hadmitted, d, hd, hhome, hdc⟩ := hx
    refine ⟨hfiled, hadmitted, ?_⟩
    rcases mem_mapClaimed.1 hd with ⟨hbuiltin, hclaimed⟩ | ⟨m, hm, rfl, _⟩
    · obtain ⟨e, he, _, hed⟩ := CriteriaModel.mem_expandKnown.1 hclaimed
      obtain ⟨_, himplied⟩ : isBuiltin c = true ∧ c ∈ foreign.closure d :=
        CriteriaModel.mem_closure_of_isBuiltin hbuiltin hdc
      exact ⟨e, he, foreign.closure_trans hed himplied⟩
    · have hspared := h m hm c hdc
      rw [hc] at hspared
      cases hspared
  · intro hx
    obtain ⟨hfiled, hadmitted, d, hd, hdc⟩ := hx
    have hknown : d ∈ foreign :=
      CriteriaModel.left_mem_of_mem_closure (CriteriaModel.mem_of_isBuiltin hc) hdc
    have hclaimed : c ∈ source.mapClaimed foreign r.criteria :=
      mem_mapClaimed.2 (.inl ⟨hc, CriteriaModel.mem_expandKnown.2 ⟨d, hd, hknown, hdc⟩⟩)
    exact ⟨hfiled, hadmitted, c, hclaimed, CriteriaModel.mem_of_isBuiltin hc,
      home.self_mem_closure c⟩

theorem SparesBuiltins.denied_iff (h : source.SparesBuiltins home) (hc : isBuiltin c = true)
    (foreign : CriteriaModel) : (∃ d ∈ source.mapDenied denied, d ∈ home.closure c) ↔
      ∃ d ∈ denied, d ∈ foreign.closure c := by
  constructor
  · intro hx
    obtain ⟨d, hd, hcd⟩ := hx
    obtain ⟨hbuiltin, himplied⟩ : isBuiltin d = true ∧ d ∈ foreign.closure c :=
      CriteriaModel.mem_closure_of_isBuiltin hc hcd
    rcases mem_mapDenied.1 hd with ⟨_, hdenied⟩ | ⟨m, hm, rfl, _⟩
    · exact ⟨d, hdenied, himplied⟩
    · have hspared := h m hm m.ours (home.self_mem_closure m.ours)
      rw [hbuiltin] at hspared
      cases hspared
  · intro hx
    obtain ⟨d, hd, hcd⟩ := hx
    obtain ⟨hbuiltin, himplied⟩ : isBuiltin d = true ∧ d ∈ home.closure c :=
      CriteriaModel.mem_closure_of_isBuiltin hc hcd
    exact ⟨d, mem_mapDenied.2 (.inl ⟨hbuiltin, hd⟩), himplied⟩

/-- An import neither adds to nor takes from what the built-in criteria mean, where the foreign
store refuses nothing and no mapping is for anything that implies them. -/
theorem adopt_keeps_builtins [SetOrder] (h : (source.adopt document home).outcome = .ok records)
    (hspares : source.SparesBuiltins home) (hid : id.package ∉ source.exclude)
    (hc : isBuiltin c = true) (mode : ExemptionMode) :
    ∃ foreign theirs, source.Adopts document home foreign theirs records ∧
      ((AuditStore.ofRecords foreign theirs).rejected = [] →
        (c ∈ (AuditStore.ofRecords home records).satisfied mode id ↔
          c ∈ (AuditStore.ofRecords foreign theirs).satisfied mode id)) := by
  obtain ⟨foreign, theirs, hadopts⟩ := exists_adopts h
  refine ⟨foreign, theirs, hadopts, fun hrejected => ?_⟩
  have haccepted := AuditStore.accepted_of_rejected_eq_nil hrejected
  have hknown : c ∈ foreign := CriteriaModel.mem_of_isBuiltin hc
  rw [hadopts.mem_satisfied_iff hid (CriteriaModel.mem_of_isBuiltin hc),
    AuditStore.mem_satisfied_iff_chain, AuditStore.exists_chain_iff_reached, haccepted,
    and_iff_right hknown, AuditRecord.forall_denies_eq_false_iff]
  apply and_congr
  · simp only [hspares.denied_iff hc foreign]
  · apply Reached.congr
    intro r
    rw [hspares.claims_iff hc]
    constructor
    · intro hx
      obtain ⟨hr, hfiled, hadmitted, hclaimed⟩ := hx
      exact ⟨haccepted.symm ▸ hr, hfiled, hadmitted, hclaimed⟩
    · intro hx
      obtain ⟨hr, hfiled, hadmitted, hclaimed⟩ := hx
      exact ⟨haccepted ▸ hr, hfiled, hadmitted, hclaimed⟩

theorem adopt_keeps_builtins_mirror :
    ∃ records, (mirror.adopt mirrored trusting).outcome = .ok records ∧
      mirror.SparesBuiltins trusting ∧ firstPad.package ∉ mirror.exclude ∧
        isBuiltin safeToRun = true ∧
          ∃ foreign theirs, mirror.Adopts mirrored trusting foreign theirs records ∧
            (AuditStore.ofRecords foreign theirs).rejected = [] ∧
            (safeToRun ∈ (AuditStore.ofRecords trusting records).satisfied .deny firstPad ↔
              safeToRun ∈ (AuditStore.ofRecords foreign theirs).satisfied .deny firstPad) := by
  obtain ⟨records, hrecords, _⟩ := exists_mirrored
  have hspares : mirror.SparesBuiltins trusting := by decide +kernel
  have hkept : firstPad.package ∉ mirror.exclude := by decide +kernel
  have hrun : isBuiltin safeToRun = true := by decide +kernel
  have hfine : ((mirror.foreignModel mirrored).toOption.any fun foreign =>
      (Document.auditRecords mirrored mirror.place).toOption.any fun theirs =>
        (AuditStore.ofRecords foreign theirs).rejected.isEmpty) = true := by decide +kernel
  obtain ⟨foreign, theirs, hadopts, hsame⟩ :=
    adopt_keeps_builtins hrecords hspares hkept hrun .deny
  rw [hadopts.model_eq, hadopts.theirs_eq] at hfine
  have hrejected : (AuditStore.ofRecords foreign theirs).rejected = [] := List.isEmpty_iff.1 hfine
  exact ⟨records, hrecords, hspares, hkept, hrun, foreign, theirs, hadopts, hrejected,
    hsame hrejected⟩

end ImportSource

end Vetting
