import Vetting.Proofs.AppendedAudit

/-! Filed records. A store keeps every record that nothing is wrong with among those of the package
that it is filed under, and refuses every other one once, with its fault. Records that are added
come behind those of the store, which are never refused again. -/

namespace Vetting

/-- The records that are filed under a package, in the order in which they came. -/
def filedUnder (package : String) (filed : List (String × AuditRecord)) : List AuditRecord :=
  (filed.filter fun f => decide (f.1 = package)).map Prod.snd

/-- Whether a list refuses the faulty ones of some filed records, each once and with its fault: in
order of the packages and, for each package, in the order filed. -/
structure Refuses (model : CriteriaModel) (filed : List (String × AuditRecord))
    (refused : List RejectedRecord) : Prop where
  sorted : refused.Pairwise fun x y => x.package ≤ y.package
  filter_eq : ∀ package, refused.filter (fun x => decide (x.package = package)) =
    (filedUnder package filed).filterMap fun r =>
      (r.fault? model package).map fun fault => ⟨package, r, fault⟩

namespace AuditStore

variable {model : CriteriaModel} {store : AuditStore model} {filed : List (String × AuditRecord)}
  {records more : List AuditRecord} {package : String}

/-- Whether a store accounts for some filed records: each of them is kept in its place, if nothing
is wrong with it, or else refused, and none is lost or doubled. -/
structure AccountsFor (store : AuditStore model) (filed : List (String × AuditRecord)) : Prop where
  recordsFor_eq : ∀ package, store.recordsFor package =
    (filedUnder package filed).filter fun r => (r.fault? model package).isNone
  refuses : Refuses model filed store.rejected
  perm : filed.Perm (store.accepted.map (fun r => (r.package, r)) ++
    store.rejected.map fun x => (x.package, x.record))
  size_add : store.size + store.rejected.length = filed.length

theorem filterMap_accept? (filed : List (String × AuditRecord)) :
    filed.filterMap (accept? model) =
      (filed.filter fun f => (f.2.fault? model f.1).isNone).map Prod.snd := by
  induction filed with
  | nil => rfl
  | cons f fs ih =>
    rw [List.filterMap_cons, List.filter_cons, accept?, ih]
    cases f.2.fault? model f.1 with
    | none => rfl
    | some fault => rfl

theorem recordsFor_ofFiled : (ofFiled model filed).recordsFor package =
    (filedUnder package filed).filter fun r => (r.fault? model package).isNone := by
  have hpackage : ∀ f r, accept? model f = some r → r.package = f.1 :=
    fun _ _ h => (package_eq_of_accept? h).2
  rw [recordsFor, ofFiled, filter_filterMap_key hpackage, filterMap_accept?, filedUnder,
    List.filter_map]
  refine congrArg (List.map Prod.snd) (List.filter_congr fun f hf => ?_)
  obtain rfl : f.1 = package := of_decide_eq_true (List.mem_filter.1 hf).2
  rfl

theorem rejected_filter_filedUnder : (ofFiled model filed).rejected.filter
      (fun x => decide (x.package = package)) =
    (filedUnder package filed).filterMap fun r =>
      (r.fault? model package).map fun fault => ⟨package, r, fault⟩ := by
  rw [rejected_filter, filedUnder, List.filterMap_map]
  refine List.filterMap_congr fun f hf => ?_
  obtain rfl : f.1 = package := of_decide_eq_true (List.mem_filter.1 hf).2
  rfl

theorem refuses_ofFiled (model : CriteriaModel) (filed : List (String × AuditRecord)) :
    Refuses model filed (ofFiled model filed).rejected :=
  ⟨pairwise_rejected, fun _ => rejected_filter_filedUnder⟩

theorem map_accepted_ofFiled : (ofFiled model filed).accepted.map (fun r => (r.package, r)) =
    filed.filter fun f => (f.2.fault? model f.1).isNone := by
  change (filed.filterMap (accept? model)).map _ = _
  rw [filterMap_accept?, List.map_map]
  refine (List.map_congr_left fun f hf => ?_).trans (List.map_id _)
  have hvalid : f.2.fault? model f.1 = none := Option.isNone_iff_eq_none.1 (List.mem_filter.1 hf).2
  have hfiled : f.2.package = f.1 := (AuditRecord.fault?_eq_none_iff.1 hvalid).1
  rw [Function.comp, hfiled]
  rfl

theorem map_filterMap_reject? (filed : List (String × AuditRecord)) :
    (filed.filterMap (reject? model)).map (fun x => (x.package, x.record)) =
      filed.filter fun f => !(f.2.fault? model f.1).isNone := by
  induction filed with
  | nil => rfl
  | cons f fs ih =>
    rw [List.filterMap_cons, List.filter_cons, reject?, ← ih]
    cases f.2.fault? model f.1 with
    | none => rfl
    | some fault => rfl

theorem perm_ofFiled : filed.Perm ((ofFiled model filed).accepted.map (fun r => (r.package, r)) ++
    (ofFiled model filed).rejected.map fun x => (x.package, x.record)) := by
  have hrefused : ((ofFiled model filed).rejected.map fun x => (x.package, x.record)).Perm
      (filed.filter fun f => !(f.2.fault? model f.1).isNone) := by
    -- What is refused is taken from the records as sorted by package.
    rw [ofFiled, map_filterMap_reject?]
    exact (sortBy_perm _ filed).filter _
  rw [map_accepted_ofFiled]
  exact (List.filter_append_perm _ filed).symm.trans (hrefused.symm.append_left _)

theorem accountsFor_ofFiled (model : CriteriaModel) (filed : List (String × AuditRecord)) :
    (ofFiled model filed).AccountsFor filed where
  recordsFor_eq _ := recordsFor_ofFiled
  refuses := refuses_ofFiled model filed
  perm := perm_ofFiled
  size_add := by
    have hperm : filed.Perm ((ofFiled model filed).accepted.map (fun r => (r.package, r)) ++
        (ofFiled model filed).rejected.map fun x => (x.package, x.record)) := perm_ofFiled
    rw [hperm.length_eq, List.length_append, List.length_map, List.length_map]
    rfl

theorem recordsFor_withRecords_append : (store.withRecords records).recordsFor package =
    store.recordsFor package ++
      (recordsOf package records).filter fun r => (r.fault? model package).isNone := by
  have hnew : (ofRecords model records).recordsFor package =
      (recordsOf package records).filter fun r => (r.fault? model package).isNone := by
    rw [recordsFor_ofRecords]
    refine List.filter_congr fun r hr => ?_
    obtain rfl : r.package = package := of_decide_eq_true (List.mem_filter.1 hr).2
    rfl
  rw [← hnew, recordsFor, accepted_withRecords, List.filter_append]
  rfl

/-- Records that were accepted are accepted again. -/
theorem rejected_withRecords : (store.withRecords records).rejected =
    (ofRecords model records).rejected := by
  have hold : ∀ package, ((store.accepted.map fun r => (r.package, r)).filter
      fun f => decide (f.1 = package)).filterMap (reject? model) = [] := by
    intro package
    rw [List.filterMap_eq_nil_iff]
    intro f hf
    obtain ⟨r, hr, rfl⟩ := List.mem_map.1 (List.mem_filter.1 hf).1
    rw [reject?, store.valid r hr]
    rfl
  refine eq_of_filter_key_eq pairwise_rejected pairwise_rejected fun package => ?_
  rw [withRecords, ofRecords, ofRecords, rejected_filter, rejected_filter, List.map_append,
    List.filter_append, List.filterMap_append, hold, List.nil_append]

theorem accepted_withRecords_withRecords :
    ((store.withRecords records).withRecords more).accepted =
      (store.withRecords (records ++ more)).accepted := by
  simp only [accepted_withRecords, accepted_ofRecords, List.filter_append, List.append_assoc]

/-- However records are filed, the store of them accounts for each: kept in order among those of its
package if nothing is wrong with it, and refused once with its fault if something is. A store with
more records has the valid ones behind its own and refuses the others only, and it accepts the same
whether they are added at once or one list after the other. -/
theorem every_record_accounted_for (model : CriteriaModel) :
    (∀ filed, (ofFiled model filed).AccountsFor filed) ∧
      ∀ (store : AuditStore model) (records : List AuditRecord),
        (∀ package, (store.withRecords records).recordsFor package = store.recordsFor package ++
          (recordsOf package records).filter fun r => (r.fault? model package).isNone) ∧
        Refuses model (records.map fun r => (r.package, r)) (store.withRecords records).rejected ∧
        ∀ more, ((store.withRecords records).withRecords more).accepted =
          (store.withRecords (records ++ more)).accepted := by
  refine ⟨accountsFor_ofFiled model, fun store records =>
    ⟨fun _ => recordsFor_withRecords_append, ?_, fun _ => accepted_withRecords_withRecords⟩⟩
  rw [rejected_withRecords]
  exact refuses_ofFiled model _

end AuditStore

end Vetting
