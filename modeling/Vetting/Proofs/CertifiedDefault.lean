import Vetting.Proofs.CertifiedStore
import Vetting.Proofs.ConflictVeto
import Vetting.Proofs.UsefulCriteria

/-! Certifying without saying what for. Useful criteria contradict no violation. Where nothing is
useful the default criterion is certified, whatever violations say of it, and each of those that
deny it at the version makes one conflict. -/

namespace Vetting

open Document

namespace AuditStore

variable {model : CriteriaModel} {store store' : AuditStore model} {mode : ExemptionMode}
  {package default c : String} {start : Option Version} {target t : Version} {criteria : NameSet}
  {who : List String} {notes : Json} {r : AuditRecord}

theorem conflicts_congr (h : store'.accepted = store.accepted) :
    store'.conflicts = store.conflicts := by
  have hviolations : store'.violationsFor = store.violationsFor := by
    funext p
    rw [violationsFor, recordsFor, h]
    rfl
  have hconflicts : store'.conflictsOf = store.conflictsOf := by
    funext r
    simp only [conflictsOf, hviolations]
  simp only [conflicts, conflictsIn, packages, recordsFor, h, hconflicts]

theorem conflictsOf_eq_nil (h : r.package ∉ store.packages) : store.conflictsOf r = [] := by
  rw [List.eq_nil_iff_forall_not_mem]
  intro x hx
  obtain ⟨_, _, hviolation, _⟩ := mem_conflictsOf.1 hx
  obtain ⟨haccepted, hpackage⟩ := mem_violationsFor.1 hviolation
  exact h (NameSet.mem_ofList.2 (List.mem_map.2 ⟨_, haccepted, hpackage⟩))

theorem packages_withRecords_of_mem (hvalid : r.fault? model r.package = none)
    (hpackage : r.package ∈ store.packages) :
    (store.withRecords [r]).packages = store.packages := by
  ext p
  rw [packages, NameSet.mem_ofList, accepted_withRecords_singleton rfl hvalid, List.map_append,
    List.mem_append, List.map_singleton, List.mem_singleton]
  refine (or_iff_left_of_imp ?_).trans NameSet.mem_ofList.symm
  rintro rfl
  exact NameSet.mem_ofList.1 hpackage

theorem recordsFor_withRecords_self (hvalid : r.fault? model r.package = none) :
    (store.withRecords [r]).recordsFor r.package = store.recordsFor r.package ++ [r] := by
  rw [recordsFor, accepted_withRecords_singleton rfl hvalid, List.filter_append,
    List.filter_cons_of_pos (by simp)]
  rfl

/-- The conflicts of a record that is added to its package come together, and all others stay. -/
theorem exists_conflicts_withRecords_of_mem (hpositive : r.violation? = none)
    (hvalid : r.fault? model r.package = none) (hpackage : r.package ∈ store.packages) :
    ∃ earlier later, store.conflicts = earlier ++ later ∧
      (store.withRecords [r]).conflicts = earlier ++ store.conflictsOf r ++ later := by
  have hconflictsOf : (store.withRecords [r]).conflictsOf = store.conflictsOf :=
    funext fun _ => conflictsOf_withRecords fun q hq => List.mem_singleton.1 hq ▸ hpositive
  obtain ⟨before, after, hsplit⟩ := List.append_of_mem hpackage
  have hascending := store.packages.ascending
  rw [hsplit, List.pairwise_append, List.pairwise_cons] at hascending
  obtain ⟨_, ⟨hafter, _⟩, hbefore⟩ := hascending
  have hne : ∀ p q : String, p < q → p ≠ q := fun p _ hlt heq => String.lt_irrefl p (heq ▸ hlt)
  -- The other packages have the records that they had.
  have hsame : ∀ ps : List String, (∀ p ∈ ps, p ≠ r.package) →
      ps.flatMap (fun p => ((store.withRecords [r]).recordsFor p).flatMap store.conflictsOf) =
        ps.flatMap fun p => (store.recordsFor p).flatMap store.conflictsOf := by
    intro ps hps
    refine List.flatMap_congr fun p hp => ?_
    rw [recordsFor_withRecords fun q hq => List.mem_singleton.1 hq ▸ (hps p hp).symm]
  refine ⟨before.flatMap (fun p => (store.recordsFor p).flatMap store.conflictsOf) ++
      (store.recordsFor r.package).flatMap store.conflictsOf,
    after.flatMap fun p => (store.recordsFor p).flatMap store.conflictsOf, ?_, ?_⟩
  · rw [conflicts, conflictsIn, hsplit, List.flatMap_append, List.flatMap_cons, List.append_assoc]
  · rw [conflicts, conflictsIn, packages_withRecords_of_mem hvalid hpackage, hconflictsOf, hsplit,
      List.flatMap_append, List.flatMap_cons,
      hsame before fun p hp => hne _ _ (hbefore p hp _ (List.mem_cons_self ..)),
      hsame after fun p hp => (hne _ _ (hafter p hp)).symm, recordsFor_withRecords_self hvalid,
      List.flatMap_append, List.flatMap_singleton]
    simp only [List.append_assoc]

/-- What one more record adds to the conflicts, if it is valid, are its own. -/
theorem exists_conflicts_withRecords (store : AuditStore model) (hpositive : r.violation? = none) :
    ∃ earlier later, store.conflicts = earlier ++ later ∧
      (store.withRecords [r]).conflicts = earlier ++
        (if r.fault? model r.package = none then store.conflictsOf r else []) ++ later := by
  cases hfault : r.fault? model r.package with
  | some f =>
    refine ⟨store.conflicts, [], (List.append_nil _).symm, ?_⟩
    rw [conflicts_congr (withRecords_singleton_of_fault? rfl hfault).1, if_neg (Option.some_ne_none f),
      List.append_nil, List.append_nil]
  | none =>
    rw [if_pos rfl]
    by_cases hpackage : r.package ∈ store.packages
    · exact exists_conflicts_withRecords_of_mem hpositive hfault hpackage
    · have hnone : store.conflictsOf r = [] := conflictsOf_eq_nil hpackage
      refine ⟨store.conflicts, [], (List.append_nil _).symm, ?_⟩
      rw [hnone, List.append_nil, List.append_nil]
      refine conflicts_withRecords (fun q hq => ?_) fun q hq => ?_
      · exact List.mem_singleton.1 hq ▸ hpositive
      · exact List.mem_singleton.1 hq ▸ hnone

/-- A claim of one criterion contradicts the violations that block it. -/
theorem conflictsOf_single (hcriteria : r.criteria = .single c) (ht : r.target? = some t) :
    store.conflictsOf r =
      (store.blocking r.package t.toRelease c).map fun w => ⟨w, r, t⟩ := by
  have hexpand : ∀ w : Violation, (model.expand (.single c)).meets w.criteria =
      w.criteria.meets (model.closure c) := by
    intro w
    rw [Bool.eq_iff_iff, NameSet.meets_iff, NameSet.meets_iff]
    refine exists_congr fun d => ?_
    rw [model.mem_expand, and_comm]
    refine and_congr_right fun _ => ⟨?_, fun hd => ⟨c, NameSet.mem_single.2 rfl, hd⟩⟩
    rintro ⟨e, he, hd⟩
    exact NameSet.mem_single.1 he ▸ hd
  have hfilter : (store.violationsFor r.package).filter (fun w =>
        (model.expand r.criteria).meets w.criteria && w.versions.contains t.toRelease) =
      store.blocking r.package t.toRelease c := by
    rw [hcriteria, blocking]
    exact List.filter_congr fun w _ => by rw [hexpand, Bool.and_comm]
  rw [conflictsOf, ht]
  exact congrArg (List.map fun w => Conflict.mk w r t) hfilter

/-- A claim of useful criteria contradicts no violation. -/
theorem conflictsOf_usefulCriteria [SetOrder] : store.conflictsOf (reviewRecord package start target
    (store.usefulCriteria mode package start target) who notes) = [] := by
  rw [List.eq_nil_iff_forall_not_mem]
  intro x hx
  obtain ⟨_, htarget, hviolation, hmeets, hrange⟩ := mem_conflictsOf.1 hx
  rw [target?_reviewRecord, Option.some.injEq] at htarget
  rw [package_reviewRecord] at hviolation
  rw [criteria_reviewRecord, usefulCriteria_eq] at hmeets
  obtain ⟨c, hc, hdenied⟩ := meets_expand_iff.1 hmeets
  have hblocking : x.violation ∈ store.blocking package target.toRelease c :=
    mem_blocking.2 ⟨hviolation, htarget ▸ hrange, hdenied⟩
  rw [(based_of_mem_expand hc).2.1] at hblocking
  cases hblocking

/-- A review of some known criteria is a valid record unless it ends where it starts. -/
theorem fault?_reviewRecord_eq_none_iff (hnonempty : ∃ c, c ∈ criteria)
    (hknown : ∀ c ∈ criteria, c ∈ model) :
    (reviewRecord package start target criteria who notes).fault? model package = none ↔
      ∀ v, start = some v → v.toRelease ≠ target.toRelease := by
  refine ⟨?_, fault?_reviewRecord hnonempty hknown⟩
  rintro hvalid v rfl hstay
  obtain ⟨_, _, _, _, hmoves⟩ := AuditRecord.fault?_eq_none_iff.1 hvalid
  exact beq_eq_false_iff_ne.1 hmoves hstay

/-- What is certified where nothing is said contradicts what denies the default, if nothing is
useful, and else nothing. -/
theorem conflictsOf_criteriaToCertify [SetOrder] (store : AuditStore model)
    (default package : String)
    (start : Option Version) (target : Version) (who : List String) (notes : Json) :
    let r := reviewRecord package start target
      (store.criteriaToCertify default package start target) who notes
    store.conflictsOf r =
      if (store.usefulCriteria .allow package start target).isEmpty = true then
        (store.blocking package target.toRelease default).map fun w => ⟨w, r, target⟩
      else [] := by
  intro r
  split
  · next hnone =>
    have hcriteria : r.criteria = .single default := by
      rw [criteria_reviewRecord, criteriaToCertify]
      exact if_pos hnone
    rw [conflictsOf_single hcriteria target?_reviewRecord, package_reviewRecord]
  · next hsome =>
    have huseful : store.criteriaToCertify default package start target =
        store.usefulCriteria .allow package start target := if_neg hsome
    unfold r
    rw [huseful]
    exact conflictsOf_usefulCriteria

end AuditStore

namespace Files

variable {files : Files} {root : Path} {loaded : LoadedStore}

/-- A store loads only if its default criterion is one of its criteria. -/
theorem default_mem_of_loadStore (h : (files.loadStore root).outcome = .ok loaded) :
    loaded.config.defaultCriteria ∈ loaded.model := by
  obtain ⟨_, _, _, _, hloads⟩ := outcome_loadStore_eq_ok_iff.1 h
  obtain ⟨_, _, hmodel⟩ := hloads.model_eq
  obtain ⟨config, _, hmodel⟩ := bind_eq_ok hmodel
  obtain ⟨entries, _, hmodel⟩ := bind_eq_ok hmodel
  obtain ⟨model, _, hmodel⟩ := bind_eq_ok hmodel
  obtain ⟨_, hdefault, hmodel⟩ := bind_eq_ok hmodel
  obtain ⟨_, _, hmodel⟩ := bind_eq_ok hmodel
  obtain ⟨hconfig, hsame⟩ := Prod.mk.inj (Except.ok.inj hmodel)
  rw [← hconfig, ← hsame]
  exact model.check_eq_ok_iff.1 (liftCriteria_eq_ok_iff.1 hdefault)

end Files

namespace Command

variable {files : Files} {root : Path} {loaded : LoadedStore} {o : CertifyOptions}

/-- What is certified without saying what for is what is useful, or the default criterion where
nothing is, and a valid record unless it ends where it starts. With it the conflicts of the store
stay as they are, but where nothing is useful: then each violation that denies something of the
default criterion at the version adds one conflict. -/
theorem certified_conflicts [SetOrder] (hload : (files.loadStore root).outcome = .ok loaded)
    (hunsaid : o.criteria = []) (start : Option Version) (target : Version) :
    let r := certified loaded o start target
    let useful := loaded.store.usefulCriteria .allow o.package start target
    r.criteria = (if useful.isEmpty = true then .single loaded.config.defaultCriteria else useful) ∧
    (r.fault? loaded.model o.package = none ↔
      ∀ v, start = some v → v.toRelease ≠ target.toRelease) ∧
    ∃ earlier later, loaded.store.conflicts = earlier ++ later ∧
      (loaded.store.withRecords [r]).conflicts = earlier ++
        (if r.fault? loaded.model o.package = none ∧ useful.isEmpty = true then
          (loaded.store.blocking o.package target.toRelease loaded.config.defaultCriteria).map
            fun w => ⟨w, r, target⟩
        else []) ++ later := by
  intro r useful
  have hr : r = reviewRecord o.package start target (loaded.store.criteriaToCertify
      loaded.config.defaultCriteria o.package start target) o.who
        ((o.notes.map Json.str).getD .null) := by
    unfold r certified
    rw [hunsaid]
    rfl
  have hpackage : r.package = o.package := package_reviewRecord
  refine ⟨?_, ?_, ?_⟩
  · rw [hr, criteria_reviewRecord]
    rfl
  · rw [hr]
    exact AuditStore.fault?_reviewRecord_eq_none_iff
      (AuditStore.exists_mem_criteriaToCertify loaded.store _ _ _ _)
      fun _ hc => AuditStore.known_criteriaToCertify (Files.default_mem_of_loadStore hload) hc
  · have hpositive : r.violation? = none := violation?_reviewRecord
    obtain ⟨earlier, later, hbefore, hafter⟩ :=
      loaded.store.exists_conflicts_withRecords hpositive
    refine ⟨earlier, later, hbefore, ?_⟩
    have hconflicts := AuditStore.conflictsOf_criteriaToCertify loaded.store
      loaded.config.defaultCriteria o.package start target o.who ((o.notes.map Json.str).getD .null)
    rw [← hr] at hconflicts
    rw [hafter, hpackage, hconflicts, ite_and]

/-- The audits file of a base of which no version is safe to run. -/
def deniedBase : Json.Members :=
  [("audits", .obj [("base", .arr [.obj
    [("criteria", .str safeToRun), ("violation", .str "*")]])])]

/-- To certify the base without saying what for. -/
def certifyBase : CertifyOptions where
  store := .ofText storeDirectory
  package := "base"
  version := "1.0.0"
  start := none
  criteria := []
  who := []
  notes := none

def baseVersion : Version := { major := 1, minor := 0, patch := 0 }

theorem certified_conflicts_deniedBase :
    ∃ loaded, ((storeOf auditsFile deniedBase).loadStore certifyBase.store).outcome = .ok loaded ∧
      certifyBase.criteria = [] ∧
      (loaded.store.withRecords [certified loaded certifyBase none baseVersion]).conflicts.length =
        loaded.store.conflicts.length + 1 := by
  obtain ⟨loaded, hload, hdenied⟩ : ∃ loaded,
      ((storeOf auditsFile deniedBase).loadStore certifyBase.store).outcome = .ok loaded ∧
        decide ((loaded.store.usefulCriteria .allow "base" none baseVersion).isEmpty = true ∧
          (loaded.store.blocking "base" baseVersion.toRelease
            loaded.config.defaultCriteria).length = 1) = true := exists_ok_of_any (by decide +kernel)
  obtain ⟨hnone, hone⟩ := of_decide_eq_true hdenied
  obtain ⟨_, hvalid, earlier, later, hbefore, hafter⟩ :=
    certified_conflicts hload (rfl : certifyBase.criteria = []) none baseVersion
  have hadded := hvalid.2 fun _ hv => absurd hv.symm (Option.some_ne_none _)
  refine ⟨loaded, hload, rfl, ?_⟩
  rw [hafter, if_pos ⟨hadded, hnone⟩, hbefore]
  simp only [List.length_append, List.length_map]
  have hlength : (loaded.store.blocking certifyBase.package baseVersion.toRelease
      loaded.config.defaultCriteria).length = 1 := hone
  omega

/-- Certifying without saying what for can contradict a violation: where all is denied nothing is
useful, and the default criterion is certified. -/
theorem exists_certified_that_conflicts :
    ¬∀ (files : Files) (root : Path) (loaded : LoadedStore) (o : CertifyOptions)
      (start : Option Version) (target : Version),
      (files.loadStore root).outcome = .ok loaded → o.criteria = [] →
        (loaded.store.withRecords [certified loaded o start target]).conflicts =
          loaded.store.conflicts := by
  intro hclaim
  obtain ⟨loaded, hload, hmore⟩ : ∃ loaded,
      ((storeOf auditsFile deniedBase).loadStore certifyBase.store).outcome = .ok loaded ∧
        decide ((loaded.store.withRecords [certified loaded certifyBase none
          baseVersion]).conflicts.length ≠ loaded.store.conflicts.length) = true :=
    exists_ok_of_any (by decide +kernel)
  have hsame := hclaim _ _ _ certifyBase none baseVersion hload rfl
  exact of_decide_eq_true hmore (congrArg List.length hsame)

end Command

end Vetting
