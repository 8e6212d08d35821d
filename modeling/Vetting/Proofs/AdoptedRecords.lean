import Vetting.Import.Adoption
import Vetting.Proofs.MoreRecords
import Vetting.Proofs.PassingVet

/-! Adopted records. What a store of them satisfies is said in terms of the foreign document: of
what its records claim and what its violations deny, both as the import maps them. -/

namespace Vetting

/-- A release that records of a kind lead to: one vouches for it on its own, or for the change from
another release that they lead to. -/
inductive Reached (counts : AuditRecord → Prop) : Release → Prop
  | vouched {r : AuditRecord} {v : Release} (count : counts r) (vouches : r.Vouches v) :
      Reached counts v
  | led {r : AuditRecord} {u v : Release} (before : Reached counts u) (count : counts r)
      (leads : r.Leads u v) : Reached counts v

namespace Reached

variable {p q : AuditRecord → Prop} {v : Release}

/-- Records may stand in for others, except for changes from a release to itself. -/
theorem transfer (h : Reached p v)
    (hvouched : ∀ r v, p r → r.Vouches v → ∃ s, q s ∧ s.Vouches v)
    (hled : ∀ r u v, p r → r.Leads u v → u ≠ v → ∃ s, q s ∧ s.Leads u v) : Reached q v := by
  induction h with
  | @vouched r v count vouches =>
    obtain ⟨s, hs, hv⟩ := hvouched r v count vouches
    exact .vouched hs hv
  | @led r u v _ count leads ih =>
    by_cases hloop : u = v
    · exact hloop ▸ ih
    · obtain ⟨s, hs, hv⟩ := hled r u v count leads hloop
      exact .led ih hs hv

theorem exists_counts (h : Reached p v) : ∃ r, p r := by
  cases h with
  | vouched count => exact ⟨_, count⟩
  | led _ count => exact ⟨_, count⟩

theorem imp (h : Reached p v) (himp : ∀ r, p r → q r) : Reached q v :=
  h.transfer (fun r _ hr hv => ⟨r, himp r hr, hv⟩) fun r _ _ hr hv _ => ⟨r, himp r hr, hv⟩

theorem congr (h : ∀ r, p r ↔ q r) : Reached p v ↔ Reached q v :=
  ⟨fun hv => hv.imp fun r => (h r).1, fun hv => hv.imp fun r => (h r).2⟩

end Reached

theorem AuditRecord.denies_violation_iff {model : CriteriaModel} {w : Violation}
    {package c : String} {v : Release} : (AuditRecord.violation w).denies model package v c = true ↔
      w.package = package ∧ w.versions.contains v = true ∧
        ∃ d ∈ w.criteria, d ∈ model.closure c := by
  rw [denies, Bool.and_eq_true, Bool.and_eq_true, NameSet.meets_iff, beq_iff_eq, and_assoc]

theorem AuditRecord.forall_denies_eq_false_iff {model : CriteriaModel} {records : List AuditRecord}
    {package c : String} {v : Release} :
    (∀ r ∈ records, r.denies model package v c = false) ↔ ∀ w, .violation w ∈ records →
      w.package = package → w.versions.contains v = true →
        ¬∃ d ∈ w.criteria, d ∈ model.closure c := by
  constructor
  · intro hundenied w hw hfiled hrange hdenied
    apply Bool.eq_false_iff.1 (hundenied _ hw)
    exact denies_violation_iff.2 ⟨hfiled, hrange, hdenied⟩
  · intro hnone r hr
    cases r with
    | violation w =>
      rw [← Bool.not_eq_true, denies_violation_iff]
      exact fun hx => hnone w hr hx.1 hx.2.1 hx.2.2
    | _ => rfl

theorem AuditRecord.Vouches.positive {r : AuditRecord} {v : Release} (h : r.Vouches v) :
    r.violation? = none ∧ r.isLoop = false := by
  cases r with
  | delta a => exact h.elim
  | violation w => exact h.elim
  | _ => exact ⟨rfl, rfl⟩

theorem AuditRecord.Leads.positive {r : AuditRecord} {u v : Release} (h : r.Leads u v)
    (hne : u ≠ v) : r.violation? = none ∧ r.isLoop = false := by
  cases r with
  | delta a =>
    obtain ⟨rfl, rfl⟩ := h
    exact ⟨rfl, beq_eq_false_iff_ne.2 hne⟩
  | _ => exact h.elim

theorem AuditStore.exists_chain_iff_reached {model : CriteriaModel} {store : AuditStore model}
    {mode : ExemptionMode} {package c : String} {v : Release} :
    (∃ chain, store.Chain mode package c chain v) ↔ Reached (store.Counts mode package c) v := by
  constructor
  · intro hx
    obtain ⟨chain, hchain⟩ := hx
    induction hchain with
    | vouched counts vouches => exact .vouched counts vouches
    | led _ counts leads ih => exact .led ih counts leads
  · intro h
    induction h with
    | vouched counts vouches => exact ⟨_, .vouched counts vouches⟩
    | led _ counts leads ih =>
      obtain ⟨chain, hchain⟩ := ih
      exact ⟨_, .led hchain counts leads⟩

theorem NameMap.mem_of_mem_entries_foldl {α : Type} {l : List (String × α)} {m : NameMap α}
    {e : String × α} (h : e ∈ (l.foldl (fun m e => m.insert e.1 e.2) m).entries) :
    e ∈ m.entries ∨ e ∈ l := by
  induction l generalizing m with
  | nil => exact .inl h
  | cons d ds ih =>
    rcases ih h with h | h
    · rcases eq_or_mem_of_mem_place h with rfl | h
      · exact .inr (List.mem_cons_self ..)
      · exact .inl h
    · exact .inr (List.mem_cons_of_mem _ h)

theorem NameMap.mem_of_mem_entries_ofList {α : Type} {l : List (String × α)} {e : String × α}
    (h : e ∈ (ofList l).entries) : e ∈ l := by
  rcases mem_of_mem_entries_foldl h with h | h
  · cases h
  · exact h

namespace ImportSource

variable {source : ImportSource} {foreign home : CriteriaModel} {criteria : NameSet}
  {r : AuditRecord} {u v : Release} {mode : ExemptionMode}

/-! A relabelled record is about the same versions of the same package. -/

theorem package_relabel : (source.relabel foreign home criteria r).package = r.package := by
  cases r <;> rfl

theorem criteria_relabel : (source.relabel foreign home criteria r).criteria = criteria := by
  cases r <;> rfl

theorem isLoop_relabel : (source.relabel foreign home criteria r).isLoop = r.isLoop := by
  cases r <;> rfl

theorem vouches_relabel : (source.relabel foreign home criteria r).Vouches v ↔ r.Vouches v := by
  cases r <;> exact Iff.rfl

theorem leads_relabel : (source.relabel foreign home criteria r).Leads u v ↔ r.Leads u v := by
  cases r <;> exact Iff.rfl

theorem admits_relabel : mode.admits (source.relabel foreign home criteria r) = mode.admits r := by
  cases r <;> cases mode <;> rfl

theorem known_of_mem_mapDependencies {d : DependencyCriteria} {e : String × NameSet} {c : String}
    (he : e ∈ (source.mapDependencies foreign home d).entries) (hc : c ∈ e.2) : c ∈ home := by
  obtain ⟨f, _, hf⟩ := List.mem_filterMap.1 (NameMap.mem_of_mem_entries_ofList he)
  simp only at hf
  split at hf
  · cases hf
  · cases hf
    exact of_decide_eq_true (NameSet.mem_filter.1 hc).2

theorem dependencyFault?_relabel :
    (source.relabel foreign home criteria r).dependencyFault? home = none := by
  rw [AuditRecord.dependencyFault?_eq_none_iff]
  intro e he c hc
  cases r with
  | full a => exact known_of_mem_mapDependencies he hc
  | delta a => exact known_of_mem_mapDependencies he hc
  | exemption x => exact known_of_mem_mapDependencies he hc
  | grant g => cases he
  | violation w => cases he

/-- A record about local criteria is only ever refused for a change from a version to itself. -/
theorem fault?_relabel (hknown : ∀ c ∈ criteria, c ∈ home) (hsome : ∃ c, c ∈ criteria) :
    (source.relabel foreign home criteria r).fault? home r.package = none ↔ r.isLoop = false := by
  rw [AuditRecord.fault?_eq_none_iff, package_relabel, criteria_relabel, isLoop_relabel]
  constructor
  · intro hx
    obtain ⟨_, _, _, _, hloop⟩ := hx
    exact hloop
  · intro hloop
    exact ⟨rfl, hsome, hknown, dependencyFault?_relabel, hloop⟩

end ImportSource

/-- What the known ones of some criteria stand for. -/
def CriteriaModel.expandKnown (model : CriteriaModel) (s : NameSet) : NameSet :=
  model.expand (s.filter fun c => decide (c ∈ model))

theorem CriteriaModel.mem_expandKnown {model : CriteriaModel} {s : NameSet} {c : String} :
    c ∈ model.expandKnown s ↔ ∃ d ∈ s, d ∈ model ∧ c ∈ model.closure d := by
  rw [expandKnown, mem_expand]
  simp only [NameSet.mem_filter, decide_eq_true_eq, and_assoc]

/-- Whether a set has what is mapped to a local criterion: all of it, and something. -/
def CriteriaMapping.Covered (m : CriteriaMapping) (s : NameSet) : Prop :=
  (∃ t, t ∈ m.theirs) ∧ ∀ t ∈ m.theirs, t ∈ s

namespace ImportSource

variable {source : ImportSource} {foreign home : CriteriaModel} {denied claimed s : NameSet}
  {c : String}

theorem mem_mapped :
    c ∈ source.mapped s ↔ ∃ m ∈ source.criteriaMap, m.ours = c ∧ m.Covered s := by
  have hcovered : ∀ m : CriteriaMapping,
      (!m.theirs.isEmpty && m.theirs.within s) = true ↔ m.Covered s := by
    intro m
    rw [Bool.and_eq_true, Bool.not_eq_true', NameSet.isEmpty_eq_false_iff, NameSet.within_iff]
    rfl
  rw [mapped, NameSet.mem_ofList, List.mem_map]
  simp only [List.mem_filter, hcovered]
  constructor
  · intro hx
    obtain ⟨m, ⟨hm, hcov⟩, hours⟩ := hx
    exact ⟨m, hm, hours, hcov⟩
  · intro hx
    obtain ⟨m, hm, hours, hcov⟩ := hx
    exact ⟨m, ⟨hm, hcov⟩, hours⟩

theorem mem_mapClaimed : c ∈ source.mapClaimed foreign claimed ↔
    isBuiltin c = true ∧ c ∈ foreign.expandKnown claimed ∨
      ∃ m ∈ source.criteriaMap, m.ours = c ∧ m.Covered (foreign.expandKnown claimed) := by
  rw [← mem_mapped, mapClaimed, NameSet.mem_union, NameSet.mem_filter, decide_eq_true_eq,
    isBuiltin, decide_eq_true_eq]
  rfl

theorem mem_mapDenied : c ∈ source.mapDenied denied ↔
    isBuiltin c = true ∧ c ∈ denied ∨
      ∃ m ∈ source.criteriaMap, m.ours = c ∧ m.Covered denied := by
  rw [← mem_mapped, mapDenied, NameSet.mem_union, NameSet.mem_filter, and_comm]

/-- An import that succeeds: the foreign criteria and records that are read off the document, and
the local records that become of them. -/
structure Adopts (source : ImportSource) (document : Json.Members) (home foreign : CriteriaModel)
    (theirs records : List AuditRecord) : Prop where
  model_eq : source.foreignModel document = .ok foreign
  theirs_eq : Document.auditRecords document source.place = .ok theirs
  adopt_eq : (source.adopt document home).outcome = .ok records

variable {document : Json.Members} {theirs records : List AuditRecord} {r : AuditRecord}
  {mode : ExemptionMode} {package : String} {v : Release} {id : PackageId}

theorem outcome_adopt : (source.adopt document home).outcome =
    source.foreignModel document >>= fun foreign =>
      (Document.auditRecords document source.place).map fun theirs =>
        (theirs.filter fun r => decide (r.package ∉ source.exclude)).filterMap
          (source.adopt? foreign home) := by
  rw [adopt, Logged.outcome_bind]
  congr 1
  funext foreign
  rw [Logged.outcome_bind, Logged.lift, foreignRecords]
  cases Document.auditRecords document source.place with
  | error fault => rfl
  | ok theirs => rfl

theorem exists_adopts (h : (source.adopt document home).outcome = .ok records) :
    ∃ foreign theirs, source.Adopts document home foreign theirs records := by
  have hadopt := h
  rw [outcome_adopt] at hadopt
  obtain ⟨foreign, hforeign, hrecords⟩ := bind_eq_ok hadopt
  cases htheirs : Document.auditRecords document source.place with
  | error fault =>
    rw [htheirs] at hrecords
    cases hrecords
  | ok theirs => exact ⟨foreign, theirs, hforeign, htheirs, h⟩

theorem Adopts.records_eq (h : source.Adopts document home foreign theirs records) :
    records = (theirs.filter fun r => decide (r.package ∉ source.exclude)).filterMap
      (source.adopt? foreign home) := by
  have hadopt := h.adopt_eq
  rw [outcome_adopt, h.model_eq, h.theirs_eq] at hadopt
  exact (Except.ok.inj hadopt).symm

theorem adopt?_eq_some_iff {s : AuditRecord} : source.adopt? foreign home r = some s ↔
    (∃ c, c ∈ source.mapRecord foreign home r) ∧
      s = source.relabel foreign home (source.mapRecord foreign home r) r := by
  rw [adopt?, ← NameSet.isEmpty_eq_false_iff]
  cases (source.mapRecord foreign home r).isEmpty with
  | true => simp
  | false => simp [eq_comm]

/-- What the store of adopted records accepts: every foreign record that is about some local
criterion, if it is of no excluded package and no change from a version to itself. -/
theorem Adopts.mem_accepted_iff (h : source.Adopts document home foreign theirs records)
    {s : AuditRecord} : s ∈ (AuditStore.ofRecords home records).accepted ↔
      ∃ r ∈ theirs, r.package ∉ source.exclude ∧ r.isLoop = false ∧
        (∃ c, c ∈ source.mapRecord foreign home r) ∧
          s = source.relabel foreign home (source.mapRecord foreign home r) r := by
  have hknown : ∀ r, ∀ c ∈ source.mapRecord foreign home r, c ∈ home :=
    fun r c hc => of_decide_eq_true (NameSet.mem_filter.1 hc).2
  rw [AuditStore.accepted_ofRecords, List.mem_filter, h.records_eq, List.mem_filterMap,
    Option.isNone_iff_eq_none]
  simp only [List.mem_filter, decide_eq_true_eq, adopt?_eq_some_iff]
  constructor
  · intro hx
    obtain ⟨⟨r, ⟨hr, hkept⟩, hsome, rfl⟩, hvalid⟩ := hx
    rw [package_relabel, fault?_relabel (hknown r) hsome] at hvalid
    exact ⟨r, hr, hkept, hvalid, hsome, rfl⟩
  · intro hx
    obtain ⟨r, hr, hkept, hloop, hsome, rfl⟩ := hx
    refine ⟨⟨r, ⟨hr, hkept⟩, hsome, rfl⟩, ?_⟩
    rw [package_relabel, fault?_relabel (hknown r) hsome]
    exact hloop

/-- Whether a foreign record claims, as the import maps it, a local criterion. -/
structure Claims (source : ImportSource) (foreign home : CriteriaModel) (mode : ExemptionMode)
    (package c : String) (r : AuditRecord) : Prop where
  filed : r.package = package
  admitted : mode.admits r = true
  implies : ∃ d ∈ source.mapClaimed foreign r.criteria, d ∈ home ∧ c ∈ home.closure d

theorem mem_mapRecord_of_violation?_eq_none (hr : r.violation? = none) :
    c ∈ source.mapRecord foreign home r ↔
      c ∈ source.mapClaimed foreign r.criteria ∧ c ∈ home := by
  cases r with
  | violation w => cases hr
  | _ => exact NameSet.mem_filter.trans (and_congr_right fun _ => decide_eq_true_iff)

theorem Adopts.reached_iff (h : source.Adopts document home foreign theirs records)
    (hpackage : package ∉ source.exclude) :
    Reached ((AuditStore.ofRecords home records).Counts mode package c) v ↔
      Reached (fun r => r ∈ theirs ∧ source.Claims foreign home mode package c r) v := by
  -- A positive foreign record and the local one that becomes of it count for the same.
  have hcounts : ∀ r, r ∈ theirs ∧ source.Claims foreign home mode package c r →
      r.violation? = none ∧ r.isLoop = false →
        (AuditStore.ofRecords home records).Counts mode package c
          (source.relabel foreign home (source.mapRecord foreign home r) r) := by
    intro r hx hx'
    obtain ⟨hr, hfiled, hadmitted, d, hd, hhome, hc⟩ := hx
    obtain ⟨hpositive, hloop⟩ := hx'
    have hmapped : d ∈ source.mapRecord foreign home r :=
      (mem_mapRecord_of_violation?_eq_none hpositive).2 ⟨hd, hhome⟩
    refine ⟨h.mem_accepted_iff.2 ⟨r, hr, hfiled.symm ▸ hpackage, hloop, ⟨d, hmapped⟩, rfl⟩,
      package_relabel.trans hfiled, admits_relabel.trans hadmitted, d, ?_, hc⟩
    rwa [criteria_relabel]
  have hclaims : ∀ s, (AuditStore.ofRecords home records).Counts mode package c s →
      ∃ r ∈ theirs, s = source.relabel foreign home (source.mapRecord foreign home r) r ∧
        (r.violation? = none → source.Claims foreign home mode package c r) := by
    intro s hs
    obtain ⟨haccepted, hfiled, hadmitted, d, hd, hc⟩ := hs
    obtain ⟨r, hr, _, _, _, rfl⟩ := h.mem_accepted_iff.1 haccepted
    rw [package_relabel] at hfiled
    rw [admits_relabel] at hadmitted
    rw [criteria_relabel] at hd
    refine ⟨r, hr, rfl, fun hpositive => ⟨hfiled, hadmitted, d, ?_⟩⟩
    obtain ⟨hmapped, hhome⟩ := (mem_mapRecord_of_violation?_eq_none hpositive).1 hd
    exact ⟨hmapped, hhome, hc⟩
  constructor
  · intro hx
    apply hx.transfer
    · intro s v hs hv
      obtain ⟨r, hr, rfl, hclaim⟩ := hclaims s hs
      have hvouches : r.Vouches v := vouches_relabel.1 hv
      exact ⟨r, ⟨hr, hclaim hvouches.positive.1⟩, hvouches⟩
    · intro s u v hs hv hne
      obtain ⟨r, hr, rfl, hclaim⟩ := hclaims s hs
      have hleads : r.Leads u v := leads_relabel.1 hv
      exact ⟨r, ⟨hr, hclaim (hleads.positive hne).1⟩, hleads⟩
  · intro hx
    apply hx.transfer
    · intro r v hr hv
      exact ⟨_, hcounts r hr hv.positive, vouches_relabel.2 hv⟩
    · intro r u v hr hv hne
      exact ⟨_, hcounts r hr (hv.positive hne), leads_relabel.2 hv⟩

/-- A local criterion is satisfied by adopted records where no violation of the foreign document
denies it and its positive records lead there, both as the import maps them. -/
theorem Adopts.mem_satisfied_iff [SetOrder] (h : source.Adopts document home foreign theirs records)
    (hid : id.package ∉ source.exclude) (hc : c ∈ home) :
    c ∈ (AuditStore.ofRecords home records).satisfied mode id ↔
      (∀ w, .violation w ∈ theirs → w.package = id.package →
        w.versions.contains id.version.toRelease = true →
          ¬∃ d ∈ source.mapDenied w.criteria, d ∈ home.closure c) ∧
        Reached (fun r => r ∈ theirs ∧ source.Claims foreign home mode id.package c r)
          id.version.toRelease := by
  rw [AuditStore.mem_satisfied_iff_chain, and_iff_right hc, AuditStore.exists_chain_iff_reached,
    h.reached_iff hid, AuditRecord.forall_denies_eq_false_iff]
  apply and_congr_left'
  constructor
  · intro hundenied w hw hfiled hrange hdenied
    obtain ⟨d, hd, hdc⟩ := hdenied
    have hmapped : d ∈ source.mapRecord foreign home (.violation w) :=
      NameSet.mem_filter.2 ⟨hd, decide_eq_true (home.mem_of_mem_closure hc hdc)⟩
    have haccepted : source.relabel foreign home (source.mapRecord foreign home (.violation w))
        (.violation w) ∈ (AuditStore.ofRecords home records).accepted := by
      apply h.mem_accepted_iff.2
      exact ⟨_, hw, by rwa [AuditRecord.package, hfiled], rfl, ⟨d, hmapped⟩, rfl⟩
    exact hundenied _ haccepted hfiled hrange ⟨d, hmapped, hdc⟩
  · intro hnone w hw hfiled hrange hdenied
    obtain ⟨r, hr, _, _, _, heq⟩ := h.mem_accepted_iff.1 hw
    cases r with
    | violation u =>
      cases heq
      obtain ⟨d, hmapped, hdc⟩ := hdenied
      exact hnone u hr hfiled hrange ⟨d, (NameSet.mem_filter.1 hmapped).1, hdc⟩
    | _ => cases heq

end ImportSource

end Vetting
