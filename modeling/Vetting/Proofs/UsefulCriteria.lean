import Vetting.Proofs.CertifiedSuggestion
import Vetting.Proofs.SuggestionHistory

/-! Useful criteria. A review that claims them makes the release where it ends hold all that holds
where it starts and that nothing denies there, and nothing else that it did not hold before. -/

namespace Vetting.AuditStore

variable {model : CriteriaModel} {store : AuditStore model} {mode : ExemptionMode}
  {package c : String} {start : Option Version} {target v : Version} {useful : NameSet}
  {who : List String} {notes : Json} {r : AuditRecord}

/-- Whether a record for useful criteria does what it is for at the release where it ends: that
release gains what holds where the review starts, or anything for a review of it all, unless it is
denied. The criteria are minimal, and a record that claims none is refused. -/
structure Fills [SetOrder] (store : AuditStore model) (mode : ExemptionMode) (package : String)
    (start : Option Version) (target : Version) (useful : NameSet) (r : AuditRecord) : Prop where
  satisfied_iff : ∀ c, c ∈ (store.withRecords [r]).satisfied mode ⟨package, target⟩ ↔
    c ∈ store.satisfied mode ⟨package, target⟩ ∨
      c ∈ model ∧ store.blocking package target.toRelease c = [] ∧
        ∀ v, start = some v → c ∈ store.satisfied mode ⟨package, v⟩
  minimal : ∀ c ∈ useful, ∀ d ∈ useful, d ≠ c → c ∉ model.closure d
  accepted_eq : useful.isEmpty = false → (store.withRecords [r]).accepted = store.accepted ++ [r]
  rejected_eq : useful.isEmpty = true → (store.withRecords [r]).accepted = store.accepted ∧
    (store.withRecords [r]).rejected = [⟨package, r, .noCriteria⟩]
  staying : ∀ v, start = some v → v.toRelease = target.toRelease → useful.isEmpty = true

/-- Nothing is gained by a review of the change from a version to itself. -/
theorem not_mem_gain [SetOrder] (hstart : start = some v) (hstay : v.toRelease = target.toRelease) :
    c ∉ store.gain mode package start target := by
  intro hc
  obtain ⟨_, hbase, hgap, _⟩ := mem_gain.1 hc
  have hkey : (⟨package, v⟩ : PackageId).key = (⟨package, target⟩ : PackageId).key := by
    rw [PackageId.key, PackageId.key, hstay]
  have hheld := hbase v hstart
  rw [satisfied_congr_key hkey] at hheld
  exact hgap hheld

theorem fault?_gain [SetOrder]
    (hnonempty : ∃ c, c ∈ model.minimize (store.gain mode package start target)) :
    (reviewRecord package start target (model.minimize (store.gain mode package start target)) who
      notes).fault? model package = none := by
  refine fault?_reviewRecord hnonempty (fun c hc => ?_) fun v hv hstay => ?_
  · exact (mem_gain.1 (model.mem_minimize.1 hc).1).1
  · obtain ⟨c, hc⟩ := hnonempty
    exact not_mem_gain hv hstay (model.mem_minimize.1 hc).1

/-- What a useful criterion implies holds where the review starts, and nothing denies it where it
ends. -/
theorem based_of_mem_expand [SetOrder] (hc : c ∈ model.expand (model.minimize
      (store.gain mode package start target))) :
    c ∈ model ∧ store.blocking package target.toRelease c = [] ∧
      ∀ v, start = some v → c ∈ store.satisfied mode ⟨package, v⟩ := by
  obtain ⟨d, hd, hdc⟩ := model.mem_expand.1 hc
  obtain ⟨hknown, hbase, _, hundenied⟩ := mem_gain.1 (model.mem_minimize.1 hd).1
  refine ⟨model.mem_of_mem_closure hknown hdc, ?_, fun v hv => ?_⟩
  · exact blocking_eq_nil_iff.2 (hundenied.of_mem_closure hdc)
  · exact satisfied_of_mem_closure (hbase v hv) hdc

theorem mem_satisfied_withRecords_gain [SetOrder] : c ∈
    (store.withRecords [reviewRecord package start target
      (model.minimize (store.gain mode package start target)) who notes]).satisfied mode
        ⟨package, target⟩ ↔
    c ∈ store.satisfied mode ⟨package, target⟩ ∨
      c ∈ model ∧ store.blocking package target.toRelease c = [] ∧
        ∀ v, start = some v → c ∈ store.satisfied mode ⟨package, v⟩ := by
  constructor
  · intro hc
    by_cases hclaimed : c ∈ model.expand (model.minimize (store.gain mode package start target))
    · exact .inr (based_of_mem_expand hclaimed)
    · exact .inl (satisfied_of_withRecords_reviewRecord hc hclaimed)
  · intro hc
    by_cases hheld : c ∈ store.satisfied mode ⟨package, target⟩
    · refine satisfied_withRecords hheld fun r hr => ?_
      rw [List.mem_singleton.1 hr]
      exact violation?_reviewRecord
    · obtain ⟨hknown, hfree, hbase⟩ := hc.resolve_left hheld
      have hundenied : store.Undenied ⟨package, target.toRelease⟩ c := blocking_eq_nil_iff.1 hfree
      obtain ⟨d, hd, hdc⟩ := model.exists_mem_minimize (mem_gain.2 ⟨hknown, hbase, hheld, hundenied⟩)
      exact satisfied_withRecords_reviewRecord (fault?_gain ⟨d, hd⟩) hbase hundenied
        (model.mem_expand.2 ⟨d, hd, hdc⟩)

/-- A record that nothing is wrong with comes last. -/
theorem accepted_withRecords_singleton (hpackage : r.package = package)
    (h : r.fault? model package = none) :
    (store.withRecords [r]).accepted = store.accepted ++ [r] := by
  subst hpackage
  rw [accepted_withRecords, accepted_ofRecords, List.filter_singleton, h]
  rfl

/-- A record with a fault is the only one refused. -/
theorem withRecords_singleton_of_fault? {f : RecordFault} (hpackage : r.package = package)
    (h : r.fault? model package = some f) :
    (store.withRecords [r]).accepted = store.accepted ∧
      (store.withRecords [r]).rejected = [⟨package, r, f⟩] := by
  subst hpackage
  constructor
  · rw [accepted_withRecords, accepted_ofRecords, List.filter_singleton, h]
    exact List.append_nil _
  · have hold : (store.accepted.map fun r => (r.package, r)).filterMap (reject? model) = [] := by
      rw [List.filterMap_eq_nil_iff]
      intro filed hfiled
      obtain ⟨q, hq, rfl⟩ := List.mem_map.1 hfiled
      rw [reject?, store.valid q hq]
      rfl
    have hnew : [(r.package, r)].filterMap (reject? model) = [⟨r.package, r, f⟩] := by
      rw [List.filterMap_cons, reject?, h]
      rfl
    have hall : ((store.accepted ++ [r]).map fun r => (r.package, r)).filterMap (reject? model) =
        [⟨r.package, r, f⟩] := by
      rw [List.map_append, List.filterMap_append, hold, List.nil_append]
      exact hnew
    have hperm := (sortBy_perm (fun a b : String × AuditRecord => decide (a.1 < b.1))
      ((store.accepted ++ [r]).map fun r => (r.package, r))).filterMap (reject? model)
    rw [hall, List.perm_singleton] at hperm
    exact hperm

/-- What an engine finds useful for a review, whatever it was asked before, has exactly its intended
effect when the review is recorded. -/
theorem usefulCriteria_fills [SetOrder] (store : AuditStore model) (mode : ExemptionMode)
    (cost : CostMetric) (history : List Session.Request) (package : String) (start : Option Version)
    (target : Version) (who : List String) (notes : Json) :
    let engine := (Session.start store mode).afterRequests cost history
    let useful := (engine.usefulCriteria package start target).1
    store.Fills mode package start target useful
      (reviewRecord package start target useful who notes) := by
  intro engine useful
  have hrecalls : Session.Recalls mode _ engine := Session.recalls_start.afterRequests cost history
  have huseful : useful = model.minimize (store.gain mode package start target) :=
    hrecalls.usefulCriteria_eq package start target
  rw [huseful]
  refine ⟨fun _ => mem_satisfied_withRecords_gain, fun c hc d hd hne => ?_, fun hsome => ?_,
    fun hnone => ?_, fun v hv hstay => NameSet.isEmpty_iff.2 fun c hc => ?_⟩
  · exact (model.mem_minimize.1 hc).2 d (model.mem_minimize.1 hd).1 hne
  · exact accepted_withRecords_singleton package_reviewRecord
      (fault?_gain (NameSet.isEmpty_eq_false_iff.1 hsome))
  · refine withRecords_singleton_of_fault? package_reviewRecord ?_
    rw [AuditRecord.fault?, package_reviewRecord, criteria_reviewRecord, hnone,
      if_neg (not_not.2 rfl), if_pos rfl]
  · exact not_mem_gain hv hstay (model.mem_minimize.1 hc).1

end Vetting.AuditStore
