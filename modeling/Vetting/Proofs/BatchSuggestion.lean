import Vetting.Proofs.MergedReviews
import Vetting.Proofs.PassingVet
import Vetting.Proofs.SingleSuggestion

/-! The suggestions for a report. Every failure is blocked, left open or covered by an audit, and
the audits, all performed together, satisfy what they cover. -/

namespace Vetting

namespace AuditStore

variable {model : CriteriaModel} {store : AuditStore model} {mode : ExemptionMode}
  {c : String} {id : PackageId} {vs : List Violation}

theorem resolve_eq_vetoed [SetOrder] (h : store.resolve mode id c = .vetoed vs) :
    vs = store.blocking id.package id.version.toRelease c ∧
      ¬store.Undenied id.key c := by
  have hviolations : (store.resolve mode id c).violations =
      store.blocking id.package id.version.toRelease c := violations_resolveIn
  have hveto : (store.resolve mode id c).isVetoed = true := by
    rw [h]
    rfl
  have hblocked : store.blocking id.package id.version.toRelease c ≠ [] :=
    blocking_ne_nil_of_isVetoed hveto
  rw [h] at hviolations
  exact ⟨hviolations, fun hundenied => hblocked (blocking_eq_nil_iff.2 hundenied)⟩

theorem explain_eq_violation [SetOrder] (h : store.explain mode id c = .violation vs) :
    vs = store.blocking id.package id.version.toRelease c ∧
      ¬store.Undenied id.key c := by
  unfold explain at h
  split at h
  · next ws hresolve =>
    obtain rfl := FailureReason.violation.inj h
    exact resolve_eq_vetoed hresolve
  · split at h
    · cases h
    · cases h

theorem exists_explain_eq_violation [SetOrder] (h : ¬store.Undenied id.key c) :
    ∃ vs, store.explain mode id c = .violation vs := by
  unfold explain
  cases hresolve : store.resolve mode id c with
  | vetoed vs => exact ⟨vs, rfl⟩
  | _ =>
    have hnone : store.blocking id.package id.version.toRelease c = [] := by
      have hviolations : (store.resolve mode id c).violations =
          store.blocking id.package id.version.toRelease c := violations_resolveIn
      rw [← hviolations, hresolve]
      rfl
    exact absurd (blocking_eq_nil_iff.1 hnone) h

end AuditStore

theorem Suggestion.audit?_eq_some_iff {s : Suggestion} {a : SuggestedAudit} :
    s.audit? = some a ↔ s = .proposed a := by
  cases s <;> simp [audit?]

namespace Session

variable {model : CriteriaModel} {store : AuditStore model} {mode : ExemptionMode}
  {s : Session store} {calls : List Call} {cost : CostMetric} {id : PackageId} {c : String}
  {required : NameSet} {v : Verdict} {f : Failure} {failures : List (Verdict × Failure)}

theorem Recalls.suggest [SetOrder] (h : Recalls mode calls s)
    (hid : id.version ∈ calls.flatMap (Call.versionsOf id.package)) :
    Recalls mode calls (s.suggest cost id c required).2 := by
  have hlater : Recalls mode calls (s.resolve id c).2 := h.resolve hid
  have hcandidate : Recalls mode calls
      ((s.resolve id c).2.candidate cost id c required).2 := hlater.candidate hid
  unfold Session.suggest
  generalize s.resolve id c = asked at hlater hcandidate
  obtain ⟨answer, t⟩ := asked
  cases answer with
  | vetoed vs => exact hlater
  | satisfied path => exact hlater
  | unreached =>
    dsimp only
    split
    · exact hlater
    · split
      · exact hcandidate
      · exact hcandidate

/-- What the failures of a report are: criteria that are required and wanting, with the reason that
resolving them gives. -/
structure Genuine [SetOrder] (store : AuditStore model) (mode : ExemptionMode) (v : Verdict)
    (f : Failure) : Prop where
  gap : f.criterion ∉ store.satisfied mode v.id
  required : f.criterion ∈ v.required
  known : ∀ d ∈ v.required, d ∈ model
  reason_eq : f.reason = store.explain mode v.id f.criterion

/-- Whether a result is for a failure and its suggestion is advice on it. -/
structure Answers [SetOrder] (store : AuditStore model) (mode : ExemptionMode) (v : Verdict)
    (f : Failure) (r : SuggestionResult) : Prop where
  id_eq : r.id = v.id
  criterion_eq : r.criterion = f.criterion
  advice : Advice store mode v.id f.criterion r.suggestion

/-- Whether results are for the failures of a list, each of them for one and one for each. -/
structure AnswersAll [SetOrder] (store : AuditStore model) (mode : ExemptionMode)
    (failures : List (Verdict × Failure)) (results : List SuggestionResult) : Prop where
  each : ∀ p ∈ failures, ∃ r ∈ results, Answers store mode p.1 p.2 r
  only : ∀ r ∈ results, ∃ p ∈ failures, Answers store mode p.1 p.2 r

theorem Recalls.answer [SetOrder] (h : Recalls mode calls s) (hgenuine : Genuine store mode v f)
    (cost : CostMetric) :
    Answers store mode v f (s.answer cost v f).1 ∧
      ∃ later, Recalls mode later (s.answer cost v f).2 := by
  have hmet : v.id.version ∈ (calls ++ [Call.satisfied v.id.package (some v.id.version)]).flatMap
      (Call.versionsOf v.id.package) := mem_versionsOf_last (by simp [Call.versionsOf])
  have hlater : Recalls mode (calls ++ [Call.satisfied v.id.package (some v.id.version)]) s :=
    h.later _
  have hc : f.criterion ∈ model := hgenuine.known _ hgenuine.required
  have hadvice : Advice store mode v.id f.criterion
      (s.suggest cost v.id f.criterion v.required).1 :=
    hlater.advice hmet hc hgenuine.known
  unfold Session.answer
  split
  · next vs hreason =>
    -- The violations that the report names are those that resolving again would find.
    obtain ⟨rfl, hdenied⟩ :=
      AuditStore.explain_eq_violation (hgenuine.reason_eq.symm.trans hreason)
    exact ⟨⟨rfl, rfl, .blocked hdenied⟩, calls, h⟩
  · exact ⟨⟨rfl, rfl, hadvice⟩, _, hlater.suggest hmet⟩

theorem AnswersAll.cons [SetOrder] {p : Verdict × Failure} {r : SuggestionResult}
    {results : List SuggestionResult} (hanswers : Answers store mode p.1 p.2 r)
    (h : AnswersAll store mode failures results) :
    AnswersAll store mode (p :: failures) (r :: results) := by
  constructor
  case each =>
    refine List.forall_mem_cons.2 ⟨⟨r, List.mem_cons_self .., hanswers⟩, fun q hq => ?_⟩
    obtain ⟨t, ht, hqt⟩ := h.each q hq
    exact ⟨t, List.mem_cons_of_mem _ ht, hqt⟩
  case only =>
    refine List.forall_mem_cons.2 ⟨⟨p, List.mem_cons_self .., hanswers⟩, fun t ht => ?_⟩
    obtain ⟨q, hq, hqt⟩ := h.only t ht
    exact ⟨q, List.mem_cons_of_mem _ hq, hqt⟩

theorem Recalls.answerAll [SetOrder] (h : Recalls mode calls s)
    (hgenuine : ∀ p ∈ failures, Genuine store mode p.1 p.2) (cost : CostMetric) :
    AnswersAll store mode failures (s.answerAll cost failures).1 := by
  induction failures generalizing calls s with
  | nil =>
    exact ⟨fun _ hp => absurd hp List.not_mem_nil, fun _ hr => absurd hr List.not_mem_nil⟩
  | cons p failures ih =>
    obtain ⟨hfirst, hrest⟩ := List.forall_mem_cons.1 hgenuine
    obtain ⟨hanswers, later, hlater⟩ := h.answer hfirst cost
    have hcons : (s.answerAll cost (p :: failures)).1 = (s.answer cost p.1 p.2).1 ::
        ((s.answer cost p.1 p.2).2.answerAll cost failures).1 := rfl
    rw [hcons]
    exact .cons hanswers (ih hlater hrest)

end Session

namespace SuggestionSet

variable {model : CriteriaModel} {store : AuditStore model} {mode : ExemptionMode}
  {failures : List (Verdict × Failure)} {results : List SuggestionResult} {id : PackageId}
  {c : String} {v : Verdict} {f : Failure} {S : SuggestionSet} {b : SuggestedAudit}

/-- Whether a criterion is listed as blocked at a version. -/
def Blocks (S : SuggestionSet) (id : PackageId) (criterion : String) : Prop :=
  ∃ r ∈ S.blocked, r.id.key = id.key ∧ r.criterion = criterion

/-- Whether a criterion is listed as unresolved at a version. -/
def LeavesOpen (S : SuggestionSet) (id : PackageId) (criterion : String) : Prop :=
  ∃ r ∈ S.unresolved, r.id.key = id.key ∧ r.criterion = criterion

/-- Whether an audit that ends at a version is for what implies a criterion. -/
def Covers (model : CriteriaModel) (S : SuggestionSet) (id : PackageId) (criterion : String) :
    Prop := ∃ a ∈ S.audits, a.key = id.key ∧ criterion ∈ model.expand a.criteria

instance : Decidable (S.Blocks id c) :=
  inferInstanceAs (Decidable (∃ r ∈ S.blocked, r.id.key = id.key ∧ r.criterion = c))

instance : Decidable (S.LeavesOpen id c) :=
  inferInstanceAs (Decidable (∃ r ∈ S.unresolved, r.id.key = id.key ∧ r.criterion = c))

instance : Decidable (S.Covers model id c) :=
  inferInstanceAs (Decidable (∃ a ∈ S.audits, a.key = id.key ∧ c ∈ model.expand a.criteria))

def records (S : SuggestionSet) : List AuditRecord := S.audits.map fun a => a.toRecord

theorem violation?_of_mem_records {r : AuditRecord} (hr : r ∈ S.records) :
    r.violation? = none := by
  obtain ⟨a, _, rfl⟩ := List.mem_map.1 hr
  exact SuggestedAudit.violation?_toRecord

/-- Audits that are promising satisfy together what they cover. -/
theorem satisfied_of_covers [SetOrder] (h : ∀ a ∈ S.audits, a.Promising store mode)
    (hc : S.Covers model id c) : c ∈ (store.withRecords S.records).satisfied mode id := by
  obtain ⟨a, ha, hkey, hcovers⟩ := hc
  have hrecord : a.toRecord ∈ S.records := List.mem_map_of_mem ha
  have hsat := (h a ha).satisfied hrecord (fun r hr => violation?_of_mem_records hr) hcovers
  have hid : (⟨a.package, a.target⟩ : PackageId).key = id.key := hkey
  rwa [AuditStore.satisfied_congr_key hid] at hsat

theorem undenied_of_covers [SetOrder] (h : ∀ a ∈ S.audits, a.Promising store mode)
    (hc : S.Covers model id c) : store.Undenied id.key c := by
  obtain ⟨a, ha, hkey, hcovers⟩ := hc
  -- Something that implies the criterion is not denied, so neither is the criterion.
  obtain ⟨d, hd, hcd⟩ := model.mem_expand.1 hcovers
  have hundenied : store.Undenied a.key d := (h a ha).undenied d hd
  rw [hkey] at hundenied
  exact hundenied.of_mem_closure hcd

open Session

theorem exists_considered [SetOrder] (h : AnswersAll store mode failures results)
    (hb : b ∈ results.filterMap fun r => r.suggestion.audit?) :
    ∃ p ∈ failures, Advice store mode p.1.id p.2.criterion (.proposed b) := by
  obtain ⟨r, hr, hrb⟩ := List.mem_filterMap.1 hb
  obtain ⟨p, hp, hanswers⟩ := h.only r hr
  have hadvice := hanswers.advice
  rw [Suggestion.audit?_eq_some_iff.1 hrb] at hadvice
  exact ⟨p, hp, hadvice⟩

theorem promising_ofResults [SetOrder] (h : AnswersAll store mode failures results) :
    ∀ a ∈ (ofResults model results).audits, a.Promising store mode := by
  refine merges_ofResults.promising store mode fun b hb => ?_
  obtain ⟨p, _, hadvice⟩ := exists_considered h hb
  exact hadvice.considered.promising

theorem blocks_iff [SetOrder] (h : AnswersAll store mode failures results)
    (hp : (v, f) ∈ failures) : (ofResults model results).Blocks v.id f.criterion ↔
      ¬store.Undenied v.id.key f.criterion := by
  constructor
  · intro hblocks
    obtain ⟨r, hr, hkey, hcriterion⟩ := hblocks
    obtain ⟨hmem, hblocked⟩ := List.mem_filter.1 hr
    obtain ⟨p, _, hanswers⟩ := h.only r hmem
    have hdenied := hanswers.advice.isBlocked_iff.1 hblocked
    rwa [← hanswers.id_eq, ← hanswers.criterion_eq, hkey, hcriterion] at hdenied
  · intro hdenied
    obtain ⟨r, hr, hanswers⟩ := h.each _ hp
    have hblocked := hanswers.advice.isBlocked_iff.2 hdenied
    exact ⟨r, List.mem_filter.2 ⟨hr, hblocked⟩, congrArg PackageId.key hanswers.id_eq,
      hanswers.criterion_eq⟩

theorem leavesOpen_iff [SetOrder] (h : AnswersAll store mode failures results)
    (hp : (v, f) ∈ failures) (hgap : f.criterion ∉ store.satisfied mode v.id) :
    (ofResults model results).LeavesOpen v.id f.criterion ↔
      store.Undenied v.id.key f.criterion ∧ store.OptedOut v.id.key f.criterion := by
  constructor
  · intro hopens
    obtain ⟨r, hr, hkey, hcriterion⟩ := hopens
    obtain ⟨hmem, hopen⟩ := List.mem_filter.1 hr
    obtain ⟨p, _, hanswers⟩ := h.only r hmem
    obtain ⟨hundenied, _, hout⟩ := hanswers.advice.isOpen_iff.1 hopen
    rw [← hanswers.id_eq, ← hanswers.criterion_eq, hkey, hcriterion] at hundenied hout
    exact ⟨hundenied, hout⟩
  · intro hout
    obtain ⟨r, hr, hanswers⟩ := h.each _ hp
    have hopen := hanswers.advice.isOpen_iff.2 ⟨hout.1, hgap, hout.2⟩
    exact ⟨r, List.mem_filter.2 ⟨hr, hopen⟩, congrArg PackageId.key hanswers.id_eq,
      hanswers.criterion_eq⟩

theorem covers_of_wanted [SetOrder] (h : AnswersAll store mode failures results)
    (hp : (v, f) ∈ failures) (hgap : f.criterion ∉ store.satisfied mode v.id)
    (hundenied : store.Undenied v.id.key f.criterion)
    (hwanted : ¬store.OptedOut v.id.key f.criterion) :
    (ofResults model results).Covers model v.id f.criterion := by
  obtain ⟨r, hr, hanswers⟩ := h.each _ hp
  obtain ⟨b, hb⟩ := hanswers.advice.exists_eq_proposed_iff.2 ⟨hundenied, hgap, hwanted⟩
  have hconsidered : Considered store mode v.id f.criterion b := (hb ▸ hanswers.advice).considered
  have hproposed : b ∈ results.filterMap fun r => r.suggestion.audit? :=
    List.mem_filterMap.2 ⟨r, hr, Suggestion.audit?_eq_some_iff.2 hb⟩
  have hmerges : SuggestedAudit.Merges model _ (ofResults model results).audits := merges_ofResults
  obtain ⟨a, ha, hkey, hexpand⟩ := hmerges.included b hproposed
  exact ⟨a, ha, hkey.trans hconsidered.key_eq, hexpand _ hconsidered.covers⟩

/-- An audit is there because some failure of the version where it ends is neither blocked nor
left open. -/
theorem exists_wanted_of_covers [SetOrder] (h : AnswersAll store mode failures results)
    (hc : (ofResults model results).Covers model id c) :
    ∃ p ∈ failures, p.1.id.key = id.key ∧ store.Undenied p.1.id.key p.2.criterion ∧
      ¬store.OptedOut p.1.id.key p.2.criterion := by
  obtain ⟨a, ha, hkey, _⟩ := hc
  have hmerges : SuggestedAudit.Merges model _ (ofResults model results).audits := merges_ofResults
  obtain ⟨b, hb, hbkey⟩ := hmerges.origin a ha
  obtain ⟨p, hp, hadvice⟩ := exists_considered h hb
  obtain ⟨hundenied, _, hwanted⟩ := hadvice.exists_eq_proposed_iff.1 ⟨b, rfl⟩
  exact ⟨p, hp, hadvice.considered.key_eq.symm.trans (hbkey.trans hkey), hundenied, hwanted⟩

/-- Where the failures of a report are found among the suggestions, and what the audits do. -/
structure Settles [SetOrder] (store : AuditStore model) (mode : ExemptionMode) (report : Report)
    (S : SuggestionSet) : Prop where
  blocks_iff : ∀ v ∈ report.failing, ∀ f ∈ v.failures,
    S.Blocks v.id f.criterion ↔ ∃ vs, f.reason = .violation vs
  blocks_only : ∀ v ∈ report.failing, ∀ f ∈ v.failures, S.Blocks v.id f.criterion →
    ¬S.LeavesOpen v.id f.criterion ∧ ¬S.Covers model v.id f.criterion
  leavesOpen_iff : ∀ v ∈ report.failing, ∀ f ∈ v.failures,
    S.LeavesOpen v.id f.criterion ↔
      ¬S.Blocks v.id f.criterion ∧ store.OptedOut v.id.key f.criterion
  covers : ∀ v ∈ report.failing, ∀ f ∈ v.failures, ¬S.Blocks v.id f.criterion →
    ¬S.LeavesOpen v.id f.criterion → S.Covers model v.id f.criterion
  covers_origin : ∀ id c, S.Covers model id c → ∃ v ∈ report.failing, ∃ f ∈ v.failures,
    v.id.key = id.key ∧ ¬S.Blocks v.id f.criterion ∧ ¬S.LeavesOpen v.id f.criterion
  reviews_nodup : (S.audits.map SuggestedAudit.review).Nodup
  satisfied : ∀ id c, S.Covers model id c → c ∈ (store.withRecords S.records).satisfied mode id

theorem settles_ofResults [SetOrder] {report : Report}
    (h : AnswersAll store mode report.failures results)
    (hgenuine : ∀ p ∈ report.failures, Genuine store mode p.1 p.2) :
    (ofResults model results).Settles store mode report := by
  have hmem : ∀ v ∈ report.failing, ∀ f ∈ v.failures, (v, f) ∈ report.failures := by
    intro v hv f hf
    exact List.mem_flatMap.2 ⟨v, hv, List.mem_map_of_mem hf⟩
  have hpromising : ∀ a ∈ (ofResults model results).audits, a.Promising store mode :=
    promising_ofResults h
  have hreason : ∀ v ∈ report.failing, ∀ f ∈ v.failures,
      (∃ vs, f.reason = .violation vs) ↔ ¬store.Undenied v.id.key f.criterion := by
    intro v hv f hf
    rw [(hgenuine _ (hmem v hv f hf)).reason_eq]
    constructor
    · intro hviolation
      obtain ⟨vs, hvs⟩ := hviolation
      exact (AuditStore.explain_eq_violation hvs).2
    · exact AuditStore.exists_explain_eq_violation
  constructor
  case blocks_iff =>
    intro v hv f hf
    rw [blocks_iff h (hmem v hv f hf), hreason v hv f hf]
  case blocks_only =>
    intro v hv f hf hblocks
    have hdenied := (blocks_iff h (hmem v hv f hf)).1 hblocks
    have hgap := (hgenuine _ (hmem v hv f hf)).gap
    refine ⟨fun hopens => hdenied ?_, fun hcovers => hdenied ?_⟩
    · exact ((leavesOpen_iff h (hmem v hv f hf) hgap).1 hopens).1
    · exact undenied_of_covers hpromising hcovers
  case leavesOpen_iff =>
    intro v hv f hf
    have hgap := (hgenuine _ (hmem v hv f hf)).gap
    rw [leavesOpen_iff h (hmem v hv f hf) hgap, blocks_iff h (hmem v hv f hf), not_not]
  case covers =>
    intro v hv f hf hblocks hopens
    have hgap := (hgenuine _ (hmem v hv f hf)).gap
    have hundenied : store.Undenied v.id.key f.criterion := by
      rwa [blocks_iff h (hmem v hv f hf), not_not] at hblocks
    refine covers_of_wanted h (hmem v hv f hf) hgap hundenied fun hout => hopens ?_
    exact (leavesOpen_iff h (hmem v hv f hf) hgap).2 ⟨hundenied, hout⟩
  case covers_origin =>
    intro id c hcovers
    obtain ⟨p, hp, hkey, hundenied, hwanted⟩ := exists_wanted_of_covers h hcovers
    obtain ⟨v, hv, hvp⟩ := List.mem_flatMap.1 hp
    obtain ⟨f, hf, rfl⟩ := List.mem_map.1 hvp
    refine ⟨v, hv, f, hf, hkey, ?_, fun hopens => hwanted ?_⟩
    · rw [blocks_iff h hp, not_not]
      exact hundenied
    · exact ((leavesOpen_iff h hp (hgenuine _ hp).gap).1 hopens).2
  case reviews_nodup =>
    have hmerges : SuggestedAudit.Merges model _ (ofResults model results).audits :=
      merges_ofResults
    exact hmerges.nodup
  case satisfied => exact fun id c hcovers => satisfied_of_covers hpromising hcovers

end SuggestionSet

namespace AuditStore

variable {model : CriteriaModel} {store : AuditStore model} {mode : ExemptionMode}
  {g : DependencyGraph} {policies : PolicyTable} {requirements : Requirements} {report : Report}

theorem genuine_of_mem_failures [SetOrder]
    (hknown : ∀ id ∈ g.thirdParty, ∀ c ∈ requirements.of id.key, c ∈ model) :
    ∀ p ∈ (store.report mode g requirements).failures, Session.Genuine store mode p.1 p.2 := by
  intro p hp
  obtain ⟨v, hv, hvp⟩ := List.mem_flatMap.1 hp
  obtain ⟨f, hf, rfl⟩ := List.mem_map.1 hvp
  obtain ⟨id, hid, rfl⟩ := List.mem_map.1 (List.mem_filter.1 hv).1
  obtain ⟨c, hc, rfl⟩ := List.mem_map.1 hf
  obtain ⟨hrequired, hgap⟩ := NameSet.mem_sdiff.1 hc
  exact ⟨hgap, hrequired, hknown id hid, rfl⟩

theorem answersAll_report [SetOrder]
    (hknown : ∀ id ∈ g.thirdParty, ∀ c ∈ requirements.of id.key, c ∈ model) (cost : CostMetric) :
    Session.AnswersAll store mode (store.report mode g requirements).failures
      ((Session.start store mode).answerAll cost (store.report mode g requirements).failures).1 := by
  have hstart : Session.Recalls mode [] (Session.start store mode) := Session.recalls_start
  exact hstart.answerAll (genuine_of_mem_failures hknown) cost

theorem settles_report [SetOrder]
    (hknown : ∀ id ∈ g.thirdParty, ∀ c ∈ requirements.of id.key, c ∈ model) (cost : CostMetric) :
    ((store.report mode g requirements).suggestions store cost).Settles store mode
      (store.report mode g requirements) :=
  SuggestionSet.settles_ofResults (answersAll_report hknown cost) (genuine_of_mem_failures hknown)

theorem promising_report [SetOrder]
    (hknown : ∀ id ∈ g.thirdParty, ∀ c ∈ requirements.of id.key, c ∈ model) (cost : CostMetric) :
    ∀ a ∈ ((store.report mode g requirements).suggestions store cost).audits,
      a.Promising store mode :=
  SuggestionSet.promising_ofResults (answersAll_report hknown cost)

theorem known_of_propagate [SetOrder] (hcheck : policies.check model = .ok ())
    (h : (store.propagator mode policies).propagate g = .ok requirements) :
    ∀ id ∈ g.thirdParty, ∀ c ∈ requirements.of id.key, c ∈ model := by
  obtain ⟨_, hprogress⟩ := Propagator.progress_of_propagate (lawful_propagator hcheck) h
  exact fun id _ c hc => hprogress.known_sumFor c hc

/-- A report of a vet and the suggestions for it leave no failure out. -/
theorem suggestions_settle [SetOrder] (h : (store.vetLogged mode g policies).outcome = .ok report)
    (cost : CostMetric) : (report.suggestions store cost).Settles store mode report := by
  rw [outcome_vetLogged] at h
  obtain ⟨hcheck, requirements, hrequirements, rfl⟩ := vet_eq_ok h
  exact settles_report (known_of_propagate hcheck hrequirements) cost

/-- The base is exempted from being safe to run, and nobody is to review that. -/
def workbenchWaiver : AuditStore .builtin :=
  .ofRecords .builtin [
    .exemption { package := "base", version := { major := 1, minor := 0, patch := 0 }
                 criteria := .single safeToRun, suggest := false }]

theorem suggestions_settle_workbench :
    ∃ report, (workbenchWaiver.vetLogged .deny workbench {}).outcome = .ok report ∧
      report.conclusion = .failVetting ∧
        (report.suggestions workbenchWaiver versionDistance).Settles workbenchWaiver .deny
          report := by
  obtain ⟨report, hvet, hfails⟩ : ∃ report,
      (workbenchWaiver.vetLogged .deny workbench {}).outcome = .ok report ∧
        report.conclusion = .failVetting := exists_report_of_conclusion (by decide +kernel)
  exact ⟨report, hvet, hfails, suggestions_settle hvet versionDistance⟩

/-- Not every failure is in one place only: a criterion that is left open for an exemption can be
covered all the same, by the full audit for what else is required of the package. -/
theorem exists_failure_left_open_and_covered :
    ¬∀ (model : CriteriaModel) (store : AuditStore model) (mode : ExemptionMode)
      (g : DependencyGraph) (policies : PolicyTable) (cost : CostMetric) (report : Report),
      (store.vetLogged mode g policies).outcome = .ok report →
        ∀ v ∈ report.failing, ∀ f ∈ v.failures,
          ((report.suggestions store cost).Blocks v.id f.criterion ∧
            ¬(report.suggestions store cost).LeavesOpen v.id f.criterion ∧
              ¬(report.suggestions store cost).Covers model v.id f.criterion) ∨
          (¬(report.suggestions store cost).Blocks v.id f.criterion ∧
            (report.suggestions store cost).LeavesOpen v.id f.criterion ∧
              ¬(report.suggestions store cost).Covers model v.id f.criterion) ∨
          (¬(report.suggestions store cost).Blocks v.id f.criterion ∧
            ¬(report.suggestions store cost).LeavesOpen v.id f.criterion ∧
              (report.suggestions store cost).Covers model v.id f.criterion) := by
  intro hclaim
  -- The base is required to be safe to deploy as well, which a full audit is suggested for.
  obtain ⟨report, hvet, hboth⟩ : ∃ report,
      (workbenchWaiver.vetLogged .deny workbench {}).outcome = .ok report ∧
        (report.failures.any fun p =>
          decide ((report.suggestions workbenchWaiver versionDistance).LeavesOpen p.1.id
            p.2.criterion ∧
              (report.suggestions workbenchWaiver versionDistance).Covers .builtin p.1.id
                p.2.criterion)) = true := exists_report_of_any (by decide +kernel)
  obtain ⟨p, hp, hpboth⟩ := List.any_eq_true.1 hboth
  obtain ⟨v, hv, hvp⟩ := List.mem_flatMap.1 hp
  obtain ⟨f, hf, rfl⟩ := List.mem_map.1 hvp
  obtain ⟨hopens, hcovers⟩ := of_decide_eq_true hpboth
  rcases hclaim _ _ _ _ _ versionDistance report hvet v hv f hf with h | h | h
  · exact h.2.1 hopens
  · exact h.2.2 hcovers
  · exact h.2.1 hopens

end AuditStore

end Vetting
