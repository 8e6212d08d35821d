import Vetting.Proofs.AdoptedRecords
import Vetting.Proofs.CoherentReport
import Vetting.Proofs.SuggestedVet
import Vetting.Proofs.WithoutExemptions

/-! What suggested audits claim. They never contradict the records: they are for criteria that are
wanting where they end and that no violation denies there, so that no conflict comes with them. -/

namespace Vetting

namespace AuditStore

variable {model : CriteriaModel} {store : AuditStore model} {records : List AuditRecord}
  {r : AuditRecord} {package : String}

theorem violationsFor_withRecords (hpositive : ∀ r ∈ records, r.violation? = none) :
    (store.withRecords records).violationsFor package = store.violationsFor package := by
  have hnone : ((ofRecords model records).accepted.filter fun r => r.package = package).filterMap
      AuditRecord.violation? = [] := by
    rw [List.filterMap_eq_nil_iff]
    intro r hr
    have haccepted := (List.mem_filter.1 hr).1
    rw [accepted_ofRecords] at haccepted
    exact hpositive r (List.mem_filter.1 haccepted).1
  have hsplit : (store.withRecords records).recordsFor package = store.recordsFor package ++
      (ofRecords model records).accepted.filter fun r => r.package = package := by
    rw [recordsFor, accepted_withRecords, List.filter_append]
    rfl
  rw [violationsFor, hsplit, List.filterMap_append, hnone, List.append_nil]
  rfl

theorem conflictsOf_withRecords (hpositive : ∀ r ∈ records, r.violation? = none) :
    (store.withRecords records).conflictsOf r = store.conflictsOf r := by
  simp only [conflictsOf, violationsFor_withRecords hpositive]

/-- Records that are no violations and contradict none leave the list of conflicts as it is. -/
theorem conflicts_withRecords (hpositive : ∀ r ∈ records, r.violation? = none)
    (hagree : ∀ r ∈ records, store.conflictsOf r = []) :
    (store.withRecords records).conflicts = store.conflicts := by
  have hsame : ∀ p, ((store.withRecords records).recordsFor p).flatMap
      (store.withRecords records).conflictsOf = (store.recordsFor p).flatMap store.conflictsOf := by
    intro p
    have hnew : ((ofRecords model records).accepted.filter fun r => r.package = p).flatMap
        store.conflictsOf = [] := by
      rw [List.flatMap_eq_nil_iff]
      intro r hr
      have haccepted := (List.mem_filter.1 hr).1
      rw [accepted_ofRecords] at haccepted
      exact hagree r (List.mem_filter.1 haccepted).1
    have hconflicts : (store.withRecords records).conflictsOf = store.conflictsOf :=
      funext fun _ => conflictsOf_withRecords hpositive
    rw [hconflicts, recordsFor, accepted_withRecords, List.filter_append, List.flatMap_append, hnew,
      List.append_nil]
    rfl
  -- A package that has records only now has no conflicts.
  have hold : store.packages =
      (store.withRecords records).packages.filter fun p => decide (p ∈ store.packages) := by
    ext p
    rw [NameSet.mem_filter, decide_eq_true_eq]
    refine ⟨fun hp => ⟨?_, hp⟩, And.right⟩
    obtain ⟨r, hr, rfl⟩ := List.mem_map.1 (NameSet.mem_ofList.1 hp)
    exact NameSet.mem_ofList.2 (List.mem_map_of_mem (mem_accepted_withRecords.2 (.inl hr)))
  have hleft : ∀ p, decide (p ∈ store.packages) = false →
      (store.recordsFor p).flatMap store.conflictsOf = [] := by
    intro p hp
    have hnone : store.recordsFor p = [] := by
      rw [List.eq_nil_iff_forall_not_mem]
      intro r hr
      obtain ⟨haccepted, rfl⟩ := mem_recordsFor.1 hr
      exact of_decide_eq_false hp (NameSet.mem_ofList.2 (List.mem_map_of_mem haccepted))
    rw [hnone]
    rfl
  rw [conflicts, conflicts, conflictsIn, conflictsIn, hold]
  simp only [hsame]
  exact (flatMap_filter_eq (fun _ _ => rfl) hleft).symm

end AuditStore

namespace SuggestedAudit

variable {model : CriteriaModel} {store : AuditStore model} {mode : ExemptionMode}
  {a b new : SuggestedAudit} {as proposals : List SuggestedAudit} {c : String}

/-- Whether an audit is only for criteria that are not satisfied where it ends. -/
def Wanting [SetOrder] (store : AuditStore model) (mode : ExemptionMode) (a : SuggestedAudit) :
    Prop :=
  ∀ c ∈ a.criteria, c ∉ store.satisfied mode ⟨a.package, a.target⟩

theorem Wanting.merged [SetOrder] (ha : a.Wanting store mode) (hnew : new.Wanting store mode)
    (hsame : a.review = new.review) : (merged model a new).Wanting store mode := by
  intro c hc
  rcases NameSet.mem_union.1 (model.mem_minimize.1 hc).1 with hc | hc
  · have hid : (⟨a.package, a.target⟩ : PackageId).key = (⟨new.package, new.target⟩ : PackageId).key :=
      key_eq_of_review_eq hsame
    have hwanting := ha c hc
    rwa [AuditStore.satisfied_congr_key hid] at hwanting
  · exact hnew c hc

theorem wanting_mergeAudit [SetOrder] (h : ∀ a ∈ as, a.Wanting store mode)
    (hnew : new.Wanting store mode) : ∀ a ∈ mergeAudit model new as, a.Wanting store mode := by
  intro b hb
  rcases eq_or_merged_of_mem_mergeAudit hb with hold | rfl | ⟨a, ha, hsame, rfl⟩
  · exact h b hold
  · exact hnew
  · exact (h a ha).merged hnew hsame

theorem wanting_foldl_mergeAudit [SetOrder] (h : ∀ a ∈ as, a.Wanting store mode)
    (hproposals : ∀ a ∈ proposals, a.Wanting store mode) :
    ∀ a ∈ proposals.foldl (fun as a => mergeAudit model a as) as, a.Wanting store mode := by
  induction proposals generalizing as with
  | nil => exact h
  | cons new proposals ih =>
    obtain ⟨hnew, hrest⟩ := List.forall_mem_cons.1 hproposals
    exact ih (wanting_mergeAudit h hnew) hrest

/-- Whether an audit agrees with the records of a store: its criteria are some of the model that are
not satisfied where it ends, and no violation of that version denies what they imply. -/
structure AgreesWith [SetOrder] (store : AuditStore model) (mode : ExemptionMode)
    (a : SuggestedAudit) : Prop where
  known : ∀ c ∈ a.criteria, c ∈ model
  wanting : ∀ c ∈ a.criteria, c ∉ store.satisfied mode ⟨a.package, a.target⟩
  undenied : ∀ c ∈ a.criteria, ∀ w, .violation w ∈ store.accepted → w.package = a.package →
    w.versions.contains a.target.toRelease = true → ∀ d ∈ model.closure c, d ∉ w.criteria

theorem Promising.agreesWith [SetOrder] (h : a.Promising store mode)
    (hwanting : a.Wanting store mode) : a.AgreesWith store mode where
  known := h.known
  wanting := hwanting
  undenied := by
    intro c hc w hw hpackage hcontains d hd hdenied
    have hundenied : store.Undenied a.key c := h.undenied c hc
    have hnot : (AuditRecord.violation w).denies model a.package a.target.toRelease c = false :=
      hundenied _ hw
    have hdenies : (AuditRecord.violation w).denies model a.package a.target.toRelease c = true :=
      AuditRecord.denies_violation_iff.2 ⟨hpackage, hcontains, d, hdenied, hd⟩
    rw [hdenies] at hnot
    cases hnot

end SuggestedAudit

namespace Session

variable {model : CriteriaModel} {store : AuditStore model} {mode : ExemptionMode}
  {s : Session store} {calls : List Call} {cost : CostMetric} {id : PackageId} {c : String}
  {required : NameSet} {a : SuggestedAudit} {v : Verdict} {f : Failure}
  {failures : List (Verdict × Failure)}

theorem Recalls.wanting_candidate [SetOrder] (h : Recalls mode calls s)
    (hgap : c ∉ store.satisfied mode id) :
    (s.candidate cost id c required).1.Wanting store mode := by
  unfold Session.candidate
  split
  · intro d hd
    exact NameSet.mem_single.1 hd ▸ hgap
  · intro d hd
    obtain ⟨hwanted, _⟩ := NameSet.mem_filter.1 (model.mem_minimize.1 hd).1
    have hnot := (NameSet.mem_sdiff.1 hwanted).2
    rwa [h.satisfied_eq] at hnot

/-- What is proposed is the candidate for a gap that was found. -/
theorem Recalls.wanting_suggest [SetOrder] (h : Recalls mode calls s)
    (hid : id.version ∈ calls.flatMap (Call.versionsOf id.package))
    (hproposed : (s.suggest cost id c required).1 = .proposed a) : a.Wanting store mode := by
  have hsatisfied : c ∈ store.satisfied mode id → (s.resolve id c).1.isSatisfied = true := by
    intro hc
    rw [h.isSatisfied_resolve]
    exact (store.mem_satisfied_iff_isSatisfied_resolve mode).1 hc |>.2
  have hlater : Recalls mode calls (s.resolve id c).2 := h.resolve hid
  unfold Session.suggest at hproposed
  generalize s.resolve id c = asked at hsatisfied hlater hproposed
  obtain ⟨answer, t⟩ := asked
  cases answer with
  | vetoed vs => cases hproposed
  | satisfied path => cases hproposed
  | unreached =>
    have hgap : c ∉ store.satisfied mode id := fun hc => by cases hsatisfied hc
    dsimp only at hproposed
    split at hproposed
    · cases hproposed
    · split at hproposed
      · obtain rfl := Suggestion.proposed.inj hproposed
        exact hlater.wanting_candidate hgap
      · cases hproposed

theorem Recalls.wanting_answer [SetOrder] (h : Recalls mode calls s)
    (hproposed : (s.answer cost v f).1.suggestion = .proposed a) : a.Wanting store mode := by
  have hmet : v.id.version ∈ (calls ++ [Call.satisfied v.id.package (some v.id.version)]).flatMap
      (Call.versionsOf v.id.package) := mem_versionsOf_last (by simp [Call.versionsOf])
  unfold Session.answer at hproposed
  split at hproposed
  · cases hproposed
  · exact (h.later _).wanting_suggest hmet hproposed

theorem Recalls.wanting_answerAll [SetOrder] (h : Recalls mode calls s)
    (hgenuine : ∀ p ∈ failures, Genuine store mode p.1 p.2) :
    ∀ r ∈ (s.answerAll cost failures).1, ∀ a, r.suggestion = .proposed a → a.Wanting store mode := by
  induction failures generalizing calls s with
  | nil => exact fun _ hr => absurd hr List.not_mem_nil
  | cons p failures ih =>
    obtain ⟨hfirst, hrest⟩ := List.forall_mem_cons.1 hgenuine
    obtain ⟨_, later, hlater⟩ := h.answer hfirst cost
    have hcons : (s.answerAll cost (p :: failures)).1 = (s.answer cost p.1 p.2).1 ::
        ((s.answer cost p.1 p.2).2.answerAll cost failures).1 := rfl
    rw [hcons]
    exact List.forall_mem_cons.2 ⟨fun _ hproposed => h.wanting_answer hproposed, ih hlater hrest⟩

/-- Of what else is required only a full review takes notice. -/
theorem candidate_of_isDelta [SetOrder] (h : (s.candidate cost id c required).1.isDelta = true) :
    s.candidate cost id c ∅ = s.candidate cost id c required := by
  unfold Session.candidate at h ⊢
  split
  · rfl
  · next hnone =>
    rw [hnone] at h
    cases h

theorem suggest_of_isDelta [SetOrder] (h : (s.suggest cost id c required).1 = .proposed a)
    (hdelta : a.isDelta = true) : (s.suggest cost id c ∅).1 = .proposed a := by
  unfold Session.suggest at h ⊢
  generalize s.resolve id c = asked at h ⊢
  obtain ⟨answer, t⟩ := asked
  cases answer with
  | vetoed vs => cases h
  | satisfied path => cases h
  | unreached =>
    dsimp only at h ⊢
    by_cases hout : store.optedOut id c = true
    · rw [if_pos hout] at h
      cases h
    · rw [if_neg hout] at h ⊢
      by_cases hcloses : store.closes (t.candidate cost id c required).2.mode
          (t.candidate cost id c required).1 c = true
      · rw [if_pos hcloses] at h
        have hcandidate : (t.candidate cost id c required).1 = a := Suggestion.proposed.inj h
        rw [candidate_of_isDelta (by rw [hcandidate]; exact hdelta), if_pos hcloses, hcandidate]
      · rw [if_neg hcloses] at h
        cases h

/-- What a new session suggests for a version agrees with the records. -/
theorem agreesWith_of_suggestChecked [SetOrder] {later : Session store}
    (h : (start store mode).suggestChecked cost id c required = .ok (.proposed a, later)) :
    a.AgreesWith store mode := by
  have hcall : Recalls mode [Call.satisfied id.package (some id.version)] (start store mode) :=
    recalls_start.later _
  have hid : id.version ∈
      [Call.satisfied id.package (some id.version)].flatMap (Call.versionsOf id.package) := by
    simp [Call.versionsOf]
  obtain ⟨_, hcheck, hrest⟩ := bind_eq_ok h
  have hc : c ∈ model := model.check_eq_ok_iff.1 hcheck
  have hanswer : ((start store mode).suggest cost id c required).1 = .proposed a ∧
      (a.isDelta = false → ∀ d ∈ required, d ∈ model) := by
    dsimp only at hrest
    split at hrest
    · next hfull =>
      obtain ⟨_, hall, hanswer⟩ := bind_eq_ok hrest
      exact ⟨congrArg Prod.fst (Except.ok.inj hanswer), fun _ =>
        CriteriaModel.checkAll_eq_ok_iff.1 hall⟩
    · next hchange =>
      have hproposed := congrArg Prod.fst (Except.ok.inj hrest)
      refine ⟨hproposed, fun hdelta => absurd ?_ hchange⟩
      rw [hproposed, Suggestion.isFullReview, hdelta]
      rfl
  obtain ⟨hproposed, hknown⟩ := hanswer
  have hpromising : a.Promising store mode := by
    cases hdelta : a.isDelta with
    | true =>
      have hadvice : Advice store mode id c ((start store mode).suggest cost id c ∅).1 :=
        hcall.advice hid hc fun d hd => absurd hd (NameSet.not_mem_empty d)
      rw [suggest_of_isDelta hproposed hdelta] at hadvice
      exact hadvice.considered.promising
    | false =>
      have hadvice : Advice store mode id c ((start store mode).suggest cost id c required).1 :=
        hcall.advice hid hc (hknown hdelta)
      rw [hproposed] at hadvice
      exact hadvice.considered.promising
  exact hpromising.agreesWith (hcall.wanting_suggest hid hproposed)

end Session

namespace AuditStore

variable {model : CriteriaModel} {store : AuditStore model} {mode : ExemptionMode}
  {g : DependencyGraph} {policies : PolicyTable} {requirements : Requirements}
  {cost : CostMetric}

theorem wanting_report [SetOrder]
    (hknown : ∀ id ∈ g.thirdParty, ∀ c ∈ requirements.of id.key, c ∈ model) :
    ∀ a ∈ ((store.report mode g requirements).suggestions store cost).audits,
      a.Wanting store mode := by
  intro a ha
  have hstart : Session.Recalls mode [] (Session.start store mode) := Session.recalls_start
  have hproposals : ∀ r ∈ ((Session.start store mode).answerAll cost
      (store.report mode g requirements).failures).1, ∀ a, r.suggestion = .proposed a →
        a.Wanting store mode := hstart.wanting_answerAll (genuine_of_mem_failures hknown)
  refine SuggestedAudit.wanting_foldl_mergeAudit (fun _ h => absurd h List.not_mem_nil) ?_ a
    (mem_sortBy.1 ha)
  intro b hb
  obtain ⟨r, hr, hrb⟩ := List.mem_filterMap.1 hb
  exact hproposals r hr b (Suggestion.audit?_eq_some_iff.1 hrb)

/-- Suggested audits never contradict the records: neither what is suggested for one version, nor
all that is suggested for a report of a vet, which leaves the conflicts of the store as they are. -/
theorem suggestions_agree_with_records [SetOrder] (store : AuditStore model) (mode : ExemptionMode)
    (cost : CostMetric) :
    (∀ id c required a later,
      (Session.start store mode).suggestChecked cost id c required = .ok (.proposed a, later) →
        a.AgreesWith store mode) ∧
    ∀ g policies report, (store.vetLogged mode g policies).outcome = .ok report →
      (∀ a ∈ (report.suggestions store cost).audits, a.AgreesWith store mode) ∧
        (store.withRecords (report.suggestions store cost).records).conflicts =
          store.conflicts := by
  refine ⟨fun _ _ _ _ _ h => Session.agreesWith_of_suggestChecked h, ?_⟩
  intro g policies report h
  rw [outcome_vetLogged] at h
  obtain ⟨hcheck, requirements, hrequirements, rfl⟩ := vet_eq_ok h
  have hknown : ∀ id ∈ g.thirdParty, ∀ c ∈ requirements.of id.key, c ∈ model :=
    known_of_propagate hcheck hrequirements
  have hpromising : ∀ a ∈ ((store.report mode g requirements).suggestions store cost).audits,
      a.Promising store mode := promising_report hknown cost
  refine ⟨fun a ha => (hpromising a ha).agreesWith (wanting_report hknown a ha), ?_⟩
  apply conflicts_withRecords
  · exact fun r hr => SuggestionSet.violation?_of_mem_records hr
  · intro r hr
    obtain ⟨a, ha, rfl⟩ := List.mem_map.1 hr
    exact conflictsOf_toRecord_eq_nil (hpromising a ha)

theorem suggestions_agree_with_records_workbenchRecall :
    (∃ a later, (Session.start workbenchRecall .deny).suggestChecked versionDistance
        ⟨"middle", { major := 1, minor := 0, patch := 0 }⟩ safeToDeploy (.single safeToRun) =
          .ok (.proposed a, later) ∧ a.AgreesWith workbenchRecall .deny) ∧
      ∃ report, (workbenchRecall.vetLogged .deny workbench {}).outcome = .ok report ∧
        (report.suggestions workbenchRecall versionDistance).audits ≠ [] ∧
          workbenchRecall.conflicts ≠ [] ∧
          (∀ a ∈ (report.suggestions workbenchRecall versionDistance).audits,
            a.AgreesWith workbenchRecall .deny) ∧
          (workbenchRecall.withRecords (report.suggestions workbenchRecall
            versionDistance).records).conflicts = workbenchRecall.conflicts := by
  obtain ⟨hsingle, hall⟩ := suggestions_agree_with_records workbenchRecall .deny versionDistance
  obtain ⟨⟨answer, later⟩, hanswer, hproposed⟩ : ∃ x, (Session.start workbenchRecall
      .deny).suggestChecked versionDistance ⟨"middle", { major := 1, minor := 0, patch := 0 }⟩
        safeToDeploy (.single safeToRun) = .ok x ∧ x.1.audit?.isSome = true :=
    exists_ok_of_any (by decide +kernel)
  obtain ⟨a, ha⟩ := Option.isSome_iff_exists.1 hproposed
  obtain rfl : answer = .proposed a := Suggestion.audit?_eq_some_iff.1 ha
  obtain ⟨report, hvet, haudits⟩ : ∃ report,
      (workbenchRecall.vetLogged .deny workbench {}).outcome = .ok report ∧
        (!(report.suggestions workbenchRecall versionDistance).audits.isEmpty) = true :=
    exists_report_of_any (by decide +kernel)
  have hconflicts : workbenchRecall.conflicts.isEmpty = false := by decide +kernel
  obtain ⟨hagree, hsame⟩ := hall workbench {} report hvet
  refine ⟨⟨a, later, hanswer, hsingle _ _ _ _ _ hanswer⟩, report, hvet, ?_, ?_, hagree, hsame⟩
  · intro hnil
    rw [hnil] at haudits
    cases haudits
  · intro hnil
    rw [hnil] at hconflicts
    cases hconflicts

end AuditStore

end Vetting
