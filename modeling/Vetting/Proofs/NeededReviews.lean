import Vetting.Proofs.CoherentReport
import Vetting.Proofs.ServingReviews
import Vetting.Proofs.SuggestionHistory

/-! Which of the audits that are suggested together can be left out. Each is there for a failure
that others serve only in a few ways, and it is needed for a failure that no other one serves. -/

namespace Vetting

namespace Session

variable {model : CriteriaModel} {store : AuditStore model} {mode : ExemptionMode}
  {s t : Session store} {calls : List Call} {cost : CostMetric} {id : PackageId} {c d : String}
  {required : NameSet} {a : SuggestedAudit} {u : Version} {versions : List Version}
  {v : Verdict} {f : Failure}

theorem grow_grow [SetOrder] : (s.grow id.package id.version).grow id.package id.version =
    s.grow id.package id.version := by
  have hknown : id.version.toRelease ∈ (AuditGraph.known store id.package
      ((s.grow id.package id.version).askedOf id.package)).map Version.toRelease := mem_known_grow
  exact if_pos (by simpa [AuditGraph.has, graph, AuditGraph.build] using hknown)

/-- The versions that are known where a suggestion for a version is made, that one included. -/
def versionsBeside [SetOrder] (s : Session store) (id : PackageId) : List Version :=
  AuditGraph.known store id.package ((s.grow id.package id.version).askedOf id.package)

theorem versionsBeside_grow [SetOrder] :
    (s.grow id.package id.version).versionsBeside id = s.versionsBeside id := by
  rw [versionsBeside, grow_grow, versionsBeside]

theorem asked_grow [SetOrder] : (s.grow id.package id.version).asked =
    if (s.graph id.package).has id.version.toRelease then s.asked
    else s.asked.insert id.package (s.askedOf id.package ++ [id.version]) := by
  unfold grow
  split
  · rfl
  · rfl

theorem versionsBeside_congr [SetOrder] (h : t.asked = s.asked) :
    t.versionsBeside id = s.versionsBeside id := by
  have hsame : t.askedOf id.package = s.askedOf id.package := by rw [askedOf, askedOf, h]
  have hgraph : t.graph id.package = s.graph id.package := by rw [graph, graph, hsame]
  have hgrown : (t.grow id.package id.version).asked = (s.grow id.package id.version).asked := by
    rw [asked_grow, asked_grow, hgraph, hsame, h]
  rw [versionsBeside, versionsBeside, askedOf, askedOf, hgrown]

theorem versionsBeside_resolve [SetOrder] :
    (s.resolve id c).2.versionsBeside id = s.versionsBeside id := by
  unfold Session.resolve
  dsimp only
  split
  · exact versionsBeside_grow
  · rfl

theorem versionsBeside_satisfied [SetOrder] :
    (s.satisfied id).2.versionsBeside id = s.versionsBeside id := by
  unfold Session.satisfied
  split
  · rfl
  · have hsame : ∀ memo, ({ s.grow id.package id.version with memo } : Session store).versionsBeside
        id = (s.grow id.package id.version).versionsBeside id := fun _ => versionsBeside_congr rfl
    exact (hsame _).trans versionsBeside_grow

theorem versionsBeside_candidate [SetOrder] :
    (s.candidate cost id c required).2.versionsBeside id = s.versionsBeside id := by
  unfold Session.candidate
  split
  · rfl
  · exact versionsBeside_satisfied

/-- Suggestions for a version bring up no other version. -/
theorem versionsBeside_suggest [SetOrder] :
    (s.suggest cost id c required).2.versionsBeside id = s.versionsBeside id := by
  have hresolved : (s.resolve id c).2.versionsBeside id = s.versionsBeside id :=
    versionsBeside_resolve
  unfold Session.suggest
  generalize s.resolve id c = asked at hresolved
  obtain ⟨answer, t⟩ := asked
  cases answer with
  | vetoed vs => exact hresolved
  | satisfied path => exact hresolved
  | unreached =>
    dsimp only
    split
    · exact hresolved
    · split
      · exact versionsBeside_candidate.trans hresolved
      · exact versionsBeside_candidate.trans hresolved

theorem versionsBeside_answer [SetOrder] :
    (s.answer cost v f).2.versionsBeside v.id = s.versionsBeside v.id := by
  unfold Session.answer
  split
  · rfl
  · exact versionsBeside_suggest

/-- The audit to propose for a criterion at a version, beside which some versions are known. -/
def proposal [SetOrder] (store : AuditStore model) (mode : ExemptionMode) (cost : CostMetric)
    (id : PackageId) (required : NameSet) (versions : List Version) (c : String) :
    SuggestedAudit :=
  match cheapest? (fun v => cost id.package (some v) id.version)
      (store.startsAmong mode id c versions) with
  | some v => changeFrom cost id c v
  | none => wholeReview store mode cost id c required

theorem proposal_of_isDelta [SetOrder]
    (h : (proposal store mode cost id required versions c).isDelta = true) :
    (proposal store mode cost id required versions c).criteria = .single c ∧
      ∃ u, u ∈ store.startsAmong mode id c versions := by
  unfold proposal at h ⊢
  split at h
  · next u hu => exact ⟨rfl, u, mem_of_cheapest? hu⟩
  · cases h

/-- A whole review is proposed only where no change could start. -/
theorem startsAmong_of_whole [SetOrder]
    (h : (proposal store mode cost id required versions c).isDelta = false) :
    store.startsAmong mode id c versions = [] := by
  unfold proposal at h
  split at h
  · cases h
  · next hnone => exact cheapest?_eq_none_iff.1 hnone

theorem Recalls.candidate_grow [SetOrder] (h : Recalls mode calls s) :
    ((s.grow id.package id.version).candidate cost id c required).1 =
      proposal store mode cost id required (s.versionsBeside id) c := by
  have hgrown : Recalls mode (calls ++ [.satisfied id.package (some id.version)])
      (s.grow id.package id.version) := h.grow_later
  rw [hgrown.candidate_eq, hgrown.startsFor_eq]
  rfl

theorem Recalls.suggest_eq_proposal [SetOrder] (h : Recalls mode calls s)
    (hproposed : (s.suggest cost id c required).1 = .proposed a) :
    a = proposal store mode cost id required (s.versionsBeside id) c := by
  rw [h.suggest_eq, h.candidate_grow] at hproposed
  split at hproposed
  · cases hproposed
  · split at hproposed
    · cases hproposed
    · split at hproposed
      · cases hproposed
      · rw [AuditStore.offer] at hproposed
        split at hproposed
        · exact (Suggestion.proposed.inj hproposed).symm
        · cases hproposed

theorem answerAll_append [SetOrder] (more failures : List (Verdict × Failure)) :
    s.answerAll cost (failures ++ more) =
      ((s.answerAll cost failures).1 ++ ((s.answerAll cost failures).2.answerAll cost more).1,
        ((s.answerAll cost failures).2.answerAll cost more).2) := by
  induction failures generalizing s with
  | nil => rfl
  | cons p failures ih =>
    obtain ⟨v, f⟩ := p
    simp only [List.cons_append, answerAll, ih]

/-- What is proposed for the failures of one verdict is proposed beside the same versions. -/
theorem Recalls.answerAll_verdict [SetOrder] {failures : List Failure} (h : Recalls mode calls s)
    (hgenuine : ∀ f ∈ failures, Genuine store mode v f) (cost : CostMetric) :
    (∀ r ∈ (s.answerAll cost (failures.map fun f => (v, f))).1, ∀ a, r.suggestion = .proposed a →
      a = proposal store mode cost v.id v.required (s.versionsBeside v.id) r.criterion) ∧
    ∃ later, Recalls mode later (s.answerAll cost (failures.map fun f => (v, f))).2 := by
  induction failures generalizing calls s with
  | nil => exact ⟨fun _ hr => absurd hr List.not_mem_nil, calls, h⟩
  | cons f failures ih =>
    obtain ⟨hfirst, hrest⟩ := List.forall_mem_cons.1 hgenuine
    obtain ⟨hanswers, later, hlater⟩ := h.answer hfirst cost
    obtain ⟨hproposals, hend⟩ := ih hlater hrest
    rw [versionsBeside_answer] at hproposals
    have hcons : (s.answerAll cost ((f :: failures).map fun f => (v, f))).1 =
        (s.answer cost v f).1 ::
          ((s.answer cost v f).2.answerAll cost (failures.map fun f => (v, f))).1 := rfl
    rw [hcons]
    refine ⟨List.forall_mem_cons.2 ⟨fun a hproposed => ?_, hproposals⟩, hend⟩
    rw [hanswers.criterion_eq]
    unfold Session.answer at hproposed
    split at hproposed
    · cases hproposed
    · exact h.suggest_eq_proposal hproposed

/-- Where all verdicts are on different versions, what is proposed for one of them is proposed
beside the same versions. -/
theorem Recalls.answerAll_verdicts [SetOrder] {vs : List Verdict} (h : Recalls mode calls s)
    (hgenuine : ∀ v ∈ vs, ∀ f ∈ v.failures, Genuine store mode v f)
    (hkeys : (vs.map fun v => v.id.key).Nodup) :
    ∀ v ∈ vs, ∃ versions,
      ∀ r ∈ (s.answerAll cost (vs.flatMap fun v => v.failures.map fun f => (v, f))).1,
        r.id.key = v.id.key → ∀ a, r.suggestion = .proposed a →
          a = proposal store mode cost v.id v.required versions r.criterion := by
  induction vs generalizing calls s with
  | nil => exact fun _ hv => absurd hv List.not_mem_nil
  | cons w vs ih =>
    obtain ⟨hw, hrest⟩ := List.forall_mem_cons.1 hgenuine
    obtain ⟨hfresh, hnodup⟩ := List.nodup_cons.1 hkeys
    obtain ⟨hblock, later, hlater⟩ := h.answerAll_verdict hw cost
    have hother : ∀ v ∈ vs, v.id.key ≠ w.id.key :=
      fun v hv heq => hfresh (List.mem_map.2 ⟨v, hv, heq⟩)
    have hfirst : ∀ r ∈ (s.answerAll cost (w.failures.map fun f => (w, f))).1, r.id = w.id := by
      intro r hr
      have hall : ∀ p ∈ w.failures.map fun f => (w, f), Genuine store mode p.1 p.2 :=
        List.forall_mem_map.2 hw
      obtain ⟨p, hp, hanswer⟩ := (h.answerAll hall cost).only r hr
      obtain ⟨f, _, rfl⟩ := List.mem_map.1 hp
      exact hanswer.id_eq
    have hlast : ∀ r ∈ ((s.answerAll cost (w.failures.map fun f => (w, f))).2.answerAll cost
        (vs.flatMap fun v => v.failures.map fun f => (v, f))).1, ∃ v ∈ vs, r.id = v.id := by
      intro r hr
      have hall : ∀ p ∈ vs.flatMap fun v => v.failures.map fun f => (v, f),
          Genuine store mode p.1 p.2 := by
        refine List.forall_mem_flatMap.2 fun v hv => ?_
        exact List.forall_mem_map.2 (hrest v hv)
      obtain ⟨p, hp, hanswer⟩ := (hlater.answerAll hall cost).only r hr
      obtain ⟨v, hv, hvp⟩ := List.mem_flatMap.1 hp
      obtain ⟨f, _, rfl⟩ := List.mem_map.1 hvp
      exact ⟨v, hv, hanswer.id_eq⟩
    rw [List.flatMap_cons, answerAll_append]
    refine List.forall_mem_cons.2 ⟨⟨s.versionsBeside w.id, fun r hr hkey => ?_⟩, fun v hv => ?_⟩
    · rcases List.mem_append.1 hr with hr | hr
      · exact hblock r hr
      · obtain ⟨v, hv, hid⟩ := hlast r hr
        exact absurd (hid ▸ hkey) (hother v hv)
    · obtain ⟨versions, hversions⟩ := ih hlater hrest hnodup v hv
      refine ⟨versions, fun r hr hkey => ?_⟩
      rcases List.mem_append.1 hr with hr | hr
      · exact absurd (hfirst r hr ▸ hkey).symm (hother v hv)
      · exact hversions r hr hkey

end Session

namespace AuditStore

variable {model : CriteriaModel} {store : AuditStore model} {mode : ExemptionMode}
  {id : PackageId} {c d : String} {u : Version} {versions : List Version}

theorem startsAmong_of_mem_closure [SetOrder] (hu : u ∈ store.startsAmong mode id d versions)
    (hd : d ∈ model) (hc : c ∈ model.closure d) : u ∈ store.startsAmong mode id c versions := by
  obtain ⟨hknown, hsatisfied, hmoves⟩ := mem_startsAmong.1 hu
  have hbased : d ∈ store.satisfied mode ⟨id.package, u⟩ :=
    (store.mem_satisfied_iff_isSatisfied_resolve mode).2 ⟨hd, hsatisfied⟩
  have hless : c ∈ store.satisfied mode ⟨id.package, u⟩ := satisfied_of_mem_closure hbased hc
  exact mem_startsAmong.2
    ⟨hknown, ((store.mem_satisfied_iff_isSatisfied_resolve mode).1 hless).2, hmoves⟩

end AuditStore

/-- A change is proposed for one criterion, and what this implies is satisfied where it starts. -/
theorem Session.startsAmong_ne_nil_of_change [SetOrder] {model : CriteriaModel}
    {store : AuditStore model}
    {mode : ExemptionMode} {cost : CostMetric} {id : PackageId} {required : NameSet}
    {versions : List Version} {a : SuggestedAudit} {c d e : String}
    (ha : a = proposal store mode cost id required versions d) (hchange : a.isDelta = true)
    (hknown : e ∈ model) (he : e ∈ a.criteria) (hc : c ∈ model.closure e) :
    e = d ∧ store.startsAmong mode id c versions ≠ [] := by
  obtain ⟨hcriteria, u, hstart⟩ := proposal_of_isDelta (ha ▸ hchange)
  rw [ha, hcriteria] at he
  obtain rfl : e = d := NameSet.mem_single.1 he
  have hbased : u ∈ store.startsAmong mode id c versions :=
    AuditStore.startsAmong_of_mem_closure hstart hknown hc
  exact ⟨rfl, List.ne_nil_of_mem hbased⟩

/-- Whether proposals that end at the version of a verdict are for failures of it, all of them made
beside the same known versions. -/
def Session.PlansFor [SetOrder] {model : CriteriaModel} (store : AuditStore model)
    (mode : ExemptionMode)
    (cost : CostMetric) (proposals : List SuggestedAudit) (v : Verdict) (versions : List Version) :
    Prop :=
  ∀ b ∈ proposals, b.key = v.id.key → ∃ f ∈ v.failures,
    Considered store mode v.id f.criterion b ∧
      b = proposal store mode cost v.id v.required versions f.criterion

namespace Report

variable {model : CriteriaModel} {store : AuditStore model} {mode : ExemptionMode}
  {cost : CostMetric} {report : Report} {b : SuggestedAudit}

open Session

/-- Every proposal for a report ends at the version of a verdict that has a plan. -/
theorem exists_plansFor [SetOrder] (hgenuine : ∀ p ∈ report.failures, Genuine store mode p.1 p.2)
    (hkeys : (report.failing.map fun v => v.id.key).Nodup)
    (hb : b ∈ ((start store mode).answerAll cost report.failures).1.filterMap fun r =>
      r.suggestion.audit?) :
    ∃ v ∈ report.failing, v.id.key = b.key ∧ ∃ versions, PlansFor store mode cost
      (((start store mode).answerAll cost report.failures).1.filterMap fun r =>
        r.suggestion.audit?) v versions := by
  have hstart : Recalls mode [] (start store mode) := recalls_start
  have hanswers := hstart.answerAll hgenuine cost
  have hfrom : ∀ r ∈ ((start store mode).answerAll cost report.failures).1, ∀ a,
      r.suggestion = .proposed a → ∃ v ∈ report.failing, r.id = v.id ∧
        ∃ f ∈ v.failures, r.criterion = f.criterion ∧ Considered store mode v.id f.criterion a := by
    intro r hr a hproposed
    obtain ⟨p, hp, hanswer⟩ := hanswers.only r hr
    obtain ⟨v, hv, hvp⟩ := List.mem_flatMap.1 hp
    obtain ⟨f, hf, rfl⟩ := List.mem_map.1 hvp
    exact ⟨v, hv, hanswer.id_eq, f, hf, hanswer.criterion_eq,
      (hproposed ▸ hanswer.advice).considered⟩
  obtain ⟨r, hr, hrb⟩ := List.mem_filterMap.1 hb
  obtain ⟨v, hv, hid, f, _, _, hconsidered⟩ := hfrom r hr b (Suggestion.audit?_eq_some_iff.1 hrb)
  have hverdicts : ∀ v ∈ report.failing, ∀ f ∈ v.failures, Genuine store mode v f := by
    intro v hv f hf
    exact hgenuine (v, f) (List.mem_flatMap.2 ⟨v, hv, List.mem_map_of_mem hf⟩)
  obtain ⟨versions, hversions⟩ := hstart.answerAll_verdicts hverdicts hkeys v hv
  refine ⟨v, hv, hconsidered.key_eq.symm, versions, fun a ha hkey => ?_⟩
  obtain ⟨t, ht, hta⟩ := List.mem_filterMap.1 ha
  have hproposed : t.suggestion = .proposed a := Suggestion.audit?_eq_some_iff.1 hta
  obtain ⟨w, hw, htid, g, hg, hcriterion, hfits⟩ := hfrom t ht a hproposed
  -- Only one verdict is on that version.
  obtain rfl : w = v := List.inj_on_of_nodup_map hkeys hw hv (hfits.key_eq.symm.trans hkey)
  refine ⟨g, hg, hfits, ?_⟩
  rw [← hcriterion]
  exact hversions t ht (congrArg PackageId.key htid) a hproposed

end Report

namespace SuggestedAudit

variable {model : CriteriaModel} {store : AuditStore model} {mode : ExemptionMode}
  {cost : CostMetric} {a b p : SuggestedAudit} {proposals before after : List SuggestedAudit}
  {v : Verdict} {f : Failure} {versions : List Version} {id : PackageId} {c : String}

/-- How it can be that an audit serves what another one is there for: it ends at another version; or
it is for the whole version, or for another failing criterion that implies the one in question, and
the other one is for a change. -/
def Overlaps (model : CriteriaModel) (v : Verdict) (criterion : String) (a b : SuggestedAudit) :
    Prop :=
  b.key ≠ a.key ∨ a.isDelta = true ∧ (b.isDelta = false ∨
    ∃ f ∈ v.failures, f.criterion ∈ b.criteria ∧ f.criterion ≠ criterion ∧
      criterion ∈ model.closure f.criterion)

theorem isDelta_eq_of_review_eq (h : a.review = b.review) : a.isDelta = b.isDelta := by
  have hstarts : a.start.map Version.toRelease = b.start.map Version.toRelease :=
    congrArg Prod.snd h
  rw [isDelta, isDelta, ← Option.isSome_map, hstarts, Option.isSome_map]

theorem review_eq_of_whole (hkey : a.key = b.key) (ha : a.isDelta = false)
    (hb : b.isDelta = false) : a.review = b.review := by
  rw [isDelta, Option.isSome_eq_false_iff, Option.isNone_iff_eq_none] at ha hb
  rw [review, review, hkey, ha, hb]

theorem mem_of_mem_others (hb : b ∈ before ++ after) : b ∈ before ++ a :: after := by
  rcases List.mem_append.1 hb with hb | hb
  · exact List.mem_append_left _ hb
  · exact List.mem_append_right _ (List.mem_cons_of_mem _ hb)

/-- Where nothing leads to, an audit serves only what it ends at. -/
theorem Serves.key_eq (h : a.Serves store mode id c)
    (hunled : ∀ u c, ¬store.Passes mode id.package c u id.version.toRelease) : a.key = id.key := by
  rcases Relation.ReflTransGen.cases_tail h.passes with htarget | ⟨u, _, hstep⟩
  · rw [key, PackageId.key, h.package_eq, htarget]
  · exact absurd hstep (hunled u c)

theorem review_ne_of_nodup (h : ((before ++ a :: after).map review).Nodup)
    (hb : b ∈ before ++ after) : b.review ≠ a.review := by
  rw [List.map_append, List.map_cons, List.nodup_middle, ← List.map_append] at h
  exact fun heq => (List.nodup_cons.1 h).1 (List.mem_map.2 ⟨b, hb, heq⟩)

/-- An audit that covers what another one of the same version was proposed for is a better one. -/
theorem overlaps_of_covers [SetOrder]
    (hplan : Session.PlansFor store mode cost proposals v versions)
    (hgathers : Gathers model proposals (before ++ a :: after))
    (hnodup : ((before ++ a :: after).map review).Nodup) (hkey : a.key = v.id.key)
    (hp : p = Session.proposal store mode cost v.id v.required versions f.criterion)
    (hreview : p.review = a.review) (hb : b ∈ before ++ after)
    (hcovers : f.criterion ∈ model.expand b.criteria) : Overlaps model v f.criterion a b := by
  by_cases hsame : b.key = a.key
  · have hne : b.review ≠ a.review := review_ne_of_nodup hnodup hb
    obtain ⟨d, hd, hfd⟩ := model.mem_expand.1 hcovers
    obtain ⟨q, hq, hqb, hdq⟩ := hgathers.origin b (mem_of_mem_others hb) d hd
    obtain ⟨g, hg, hconsidered, hqg⟩ :=
      hplan q hq ((key_eq_of_review_eq hqb).trans (hsame.trans hkey))
    refine .inr ?_
    cases hchange : b.isDelta with
    | false =>
      have hdelta : a.isDelta = true := by
        rw [← Bool.not_eq_false]
        exact fun hwhole => hne (review_eq_of_whole hsame hchange hwhole)
      exact ⟨hdelta, .inl rfl⟩
    | true =>
      have hqdelta : q.isDelta = true := (isDelta_eq_of_review_eq hqb).trans hchange
      obtain ⟨rfl, hstarts⟩ := Session.startsAmong_ne_nil_of_change hqg hqdelta
        (hconsidered.promising.known d hdq) hdq hfd
      have hdelta : a.isDelta = true := by
        rw [← isDelta_eq_of_review_eq hreview, hp, ← Bool.not_eq_false]
        exact fun hwhole => hstarts (Session.startsAmong_of_whole hwhole)
      refine ⟨hdelta, .inr ⟨g, hg, hd, fun heq => hne ?_, hfd⟩⟩
      rw [← hqb, ← hreview, hqg, hp, heq]
  · exact .inl hsame

end SuggestedAudit

namespace Report

variable {model : CriteriaModel} {store : AuditStore model} {mode : ExemptionMode}
  {report : Report} {a : SuggestedAudit} {before after all part : List SuggestedAudit}

open SuggestedAudit

/-- Whether some audits leave a failure of a report open that all of them close. -/
def Misses [SetOrder] (store : AuditStore model) (mode : ExemptionMode) (report : Report)
    (all part : List SuggestedAudit) : Prop :=
  ∃ p ∈ report.failures,
    p.2.criterion ∈ (store.withRecords (all.map fun a => a.toRecord)).satisfied mode p.1.id ∧
      p.2.criterion ∉ (store.withRecords (part.map fun a => a.toRecord)).satisfied mode p.1.id

/-- What leaving an audit out of those that are suggested together does. It is missed unless every
failure that it serves another one serves, and those that do so are of few kinds. -/
structure Weighs [SetOrder] (store : AuditStore model) (mode : ExemptionMode) (report : Report)
    (before : List SuggestedAudit) (a : SuggestedAudit) (after : List SuggestedAudit) : Prop where
  misses_iff : report.Misses store mode (before ++ a :: after) (before ++ after) ↔
    ∃ p ∈ report.failures, a.Serves store mode p.1.id p.2.criterion ∧
      ∀ b ∈ before ++ after, ¬b.Serves store mode p.1.id p.2.criterion
  nonempty : ∃ c, c ∈ a.criteria
  purpose : ∀ c ∈ a.criteria, ∃ p ∈ report.failures, p.1.id.key = a.key ∧
    (a.isDelta = true → p.2.criterion = c) ∧ a.Serves store mode p.1.id p.2.criterion ∧
      ∀ b ∈ before ++ after, b.Serves store mode p.1.id p.2.criterion →
        Overlaps model p.1 p.2.criterion a b
  needed : (∀ u c, ¬store.Passes mode a.package c u a.target.toRelease) →
    (a.isDelta = false ∨ ∀ b ∈ before ++ after, b.key ≠ a.key) →
      report.Misses store mode (before ++ a :: after) (before ++ after)

theorem misses_iff [SetOrder] (hgenuine : ∀ p ∈ report.failures, Session.Genuine store mode p.1 p.2)
    (hpromising : ∀ b ∈ before ++ a :: after, b.Promising store mode) :
    report.Misses store mode (before ++ a :: after) (before ++ after) ↔
      ∃ p ∈ report.failures, a.Serves store mode p.1.id p.2.criterion ∧
        ∀ b ∈ before ++ after, ¬b.Serves store mode p.1.id p.2.criterion := by
  have hothers : ∀ b ∈ before ++ after, b.Promising store mode :=
    fun b hb => hpromising b (mem_of_mem_others hb)
  have hself : a ∈ before ++ a :: after := List.mem_append_right _ (List.mem_cons_self ..)
  constructor
  · rintro ⟨p, hp, hall, hpart⟩
    rw [mem_satisfied_withRecords_iff hpromising] at hall
    rw [mem_satisfied_withRecords_iff hothers, not_or, not_exists] at hpart
    obtain ⟨hgap, hnone⟩ := hpart
    have hnone : ∀ b ∈ before ++ after, ¬b.Serves store mode p.1.id p.2.criterion :=
      fun b hb hserves => hnone b ⟨hb, hserves⟩
    obtain ⟨b, hb, hserves⟩ := hall.resolve_left hgap
    rcases List.mem_append.1 hb with hb | hb
    · exact absurd hserves (hnone b (List.mem_append_left _ hb))
    · rcases List.mem_cons.1 hb with rfl | hb
      · exact ⟨p, hp, hserves, hnone⟩
      · exact absurd hserves (hnone b (List.mem_append_right _ hb))
  · rintro ⟨p, hp, hserves, hnone⟩
    refine ⟨p, hp, (mem_satisfied_withRecords_iff hpromising).2 (.inr ⟨a, hself, hserves⟩), ?_⟩
    rw [mem_satisfied_withRecords_iff hothers, not_or, not_exists]
    exact ⟨(hgenuine p hp).gap, fun b hb => hnone b hb.1 hb.2⟩

/-- What an audit was proposed for it serves, and others serve it in few ways. -/
theorem exists_purpose [SetOrder]
    (hgenuine : ∀ p ∈ report.failures, Session.Genuine store report.mode p.1 p.2)
    (hkeys : (report.failing.map fun v => v.id.key).Nodup) (cost : CostMetric)
    (hpromising : a.Promising store report.mode)
    (hsplit : (report.suggestions store cost).audits = before ++ a :: after) {c : String}
    (hc : c ∈ a.criteria) : ∃ p ∈ report.failures, p.1.id.key = a.key ∧
      (a.isDelta = true → p.2.criterion = c) ∧ a.Serves store report.mode p.1.id p.2.criterion ∧
        ∀ b ∈ before ++ after, b.Serves store report.mode p.1.id p.2.criterion →
          Overlaps model p.1 p.2.criterion a b := by
  have hself : a ∈ before ++ a :: after := List.mem_append_right _ (List.mem_cons_self ..)
  have hgathers : Gathers model (((Session.start store report.mode).answerAll cost
      report.failures).1.filterMap fun r => r.suggestion.audit?) (before ++ a :: after) :=
    hsplit ▸ gathers_ofResults
  have hnodup : ((before ++ a :: after).map review).Nodup :=
    hsplit ▸ SuggestionSet.merges_ofResults.nodup
  obtain ⟨b, hb, hreview, hcb⟩ := hgathers.origin a hself c hc
  obtain ⟨v, hv, hkey, versions, hplan⟩ := exists_plansFor hgenuine hkeys hb
  obtain ⟨f, hf, hconsidered, hbf⟩ := hplan b hb hkey.symm
  have hakey : a.key = v.id.key := (key_eq_of_review_eq hreview).symm.trans hkey.symm
  have hcovers : f.criterion ∈ model.expand a.criteria := by
    obtain ⟨x, hx, hxreview, hcovers⟩ := hgathers.covered b hb _ hconsidered.covers
    obtain rfl : x = a := List.inj_on_of_nodup_map hnodup hx hself (hxreview.trans hreview)
    exact hcovers
  have hundenied : store.Undenied v.id.key f.criterion := by
    obtain ⟨d, hd, hfd⟩ := model.mem_expand.1 hcovers
    exact (hakey ▸ hpromising.undenied d hd).of_mem_closure hfd
  have htarget : a.target.toRelease = v.id.version.toRelease := congrArg PackageKey.release hakey
  refine ⟨(v, f), List.mem_flatMap.2 ⟨v, hv, List.mem_map_of_mem hf⟩, hakey.symm, ?_, ?_, ?_⟩
  · intro hdelta
    rw [← isDelta_eq_of_review_eq hreview, hbf] at hdelta
    obtain ⟨hcriteria, _⟩ := Session.proposal_of_isDelta hdelta
    rw [hbf, hcriteria] at hcb
    exact (NameSet.mem_single.1 hcb).symm
  · exact ⟨congrArg PackageKey.package hakey, hcovers, hundenied, htarget ▸ .refl⟩
  · intro x hx hserves
    exact overlaps_of_covers hplan hgathers hnodup hakey hbf hreview hx hserves.covers

end Report

namespace AuditStore

variable {model : CriteriaModel} {store : AuditStore model} {mode : ExemptionMode}
  {g : DependencyGraph} {policies : PolicyTable} {report : Report} {a : SuggestedAudit}
  {before after : List SuggestedAudit}

theorem nodup_failing [SetOrder] {requirements : Requirements} :
    ((store.report mode g requirements).failing.map fun v => v.id.key).Nodup := by
  have hall : ((store.report mode g requirements).verdicts.map fun v => v.id.key).Nodup := by
    rw [report, List.map_map]
    exact g.nodup_thirdParty
  exact hall.sublist (List.filter_sublist.map _)

/-- Of the audits that are suggested together for a report of a vet every one is there for a failure
that it serves. It is missed when it is left out, unless others serve all that it serves, which only
those do that end at other versions, and for a change those of the whole version or for more. -/
theorem suggestion_weighs [SetOrder] (h : (store.vetLogged mode g policies).outcome = .ok report)
    (cost : CostMetric) (hsplit : (report.suggestions store cost).audits = before ++ a :: after) :
    report.Weighs store mode before a after := by
  rw [outcome_vetLogged] at h
  obtain ⟨hcheck, requirements, hrequirements, rfl⟩ := vet_eq_ok h
  have hknown : ∀ id ∈ g.thirdParty, ∀ c ∈ requirements.of id.key, c ∈ model :=
    known_of_propagate hcheck hrequirements
  have hgenuine : ∀ p ∈ (store.report mode g requirements).failures,
      Session.Genuine store mode p.1 p.2 := genuine_of_mem_failures hknown
  have hpromising : ∀ b ∈ before ++ a :: after, b.Promising store mode :=
    hsplit ▸ promising_report hknown cost
  have hself := hpromising a (List.mem_append_right _ (List.mem_cons_self ..))
  have hmisses := Report.misses_iff hgenuine hpromising
  have hpurpose := fun c hc =>
    Report.exists_purpose (c := c) hgenuine nodup_failing cost hself hsplit hc
  refine ⟨hmisses, hself.nonempty, hpurpose, fun hunled halone => hmisses.2 ?_⟩
  obtain ⟨c, hc⟩ := hself.nonempty
  obtain ⟨p, hp, hkey, _, hserves, hothers⟩ := hpurpose c hc
  refine ⟨p, hp, hserves, fun b hb hbserves => ?_⟩
  have hsame : b.key = a.key := by
    rw [← hkey]
    obtain ⟨hpackage, hrelease⟩ := PackageKey.mk.inj hkey
    refine hbserves.key_eq fun u d => ?_
    rw [hpackage, hrelease]
    exact hunled u d
  rcases halone with hwhole | hnone
  · rcases hothers b hb hbserves with hne | ⟨hdelta, _⟩
    · exact hne hsame
    · rw [hwhole] at hdelta
      cases hdelta
  · exact hnone b hb hsame

/-- An older version of the base was reviewed for being safe to run. -/
def workbenchOldReview : AuditStore .builtin :=
  .ofRecords .builtin [
    .full { package := "base", version := { major := 0, minor := 9, patch := 0 }
            criteria := .single safeToRun }]

/-- The change since then need not be reviewed, as the new version has to be reviewed for more. -/
theorem exists_unmissed_workbench :
    ∃ report, (workbenchOldReview.vetLogged .deny workbench {}).outcome = .ok report ∧
      ∃ a after, (report.suggestions workbenchOldReview versionDistance).audits = a :: after ∧
        a.isDelta = true ∧ ¬report.Misses workbenchOldReview .deny (a :: after) after := by
  obtain ⟨report, hvet, hunmissed⟩ : ∃ report,
      (workbenchOldReview.vetLogged .deny workbench {}).outcome = .ok report ∧
        ((report.suggestions workbenchOldReview versionDistance).audits.head?.any
            SuggestedAudit.isDelta &&
          report.failures.all fun p => decide (p.2.criterion ∈
            (workbenchOldReview.withRecords ((report.suggestions workbenchOldReview
              versionDistance).audits.tail.map fun a => a.toRecord)).satisfied .deny
                p.1.id)) = true := exists_report_of_any (by decide +kernel)
  obtain ⟨hdelta, hall⟩ := Bool.and_eq_true_iff.1 hunmissed
  cases haudits : (report.suggestions workbenchOldReview versionDistance).audits with
  | nil =>
    rw [haudits] at hdelta
    cases hdelta
  | cons a after =>
    rw [haudits] at hdelta hall
    refine ⟨report, hvet, a, after, haudits, hdelta, fun hmisses => ?_⟩
    obtain ⟨p, hp, _, hmissed⟩ := hmisses
    exact hmissed (of_decide_eq_true (List.all_eq_true.1 hall p hp))

theorem suggestion_weighs_workbench :
    ∃ report, (workbenchOldReview.vetLogged .deny workbench {}).outcome = .ok report ∧
      ∃ before a after, (report.suggestions workbenchOldReview versionDistance).audits =
          before ++ a :: after ∧
        report.Weighs workbenchOldReview .deny before a after := by
  obtain ⟨report, hvet, a, after, haudits, _⟩ := exists_unmissed_workbench
  exact ⟨report, hvet, [], a, after, haudits, suggestion_weighs hvet versionDistance haudits⟩

/-- Not every audit that is suggested is needed: the review of a change is proposed for one
criterion where the whole version is to be reviewed for another that implies it. -/
theorem exists_suggestion_unmissed :
    ¬∀ (model : CriteriaModel) (store : AuditStore model) (mode : ExemptionMode)
      (g : DependencyGraph) (policies : PolicyTable) (cost : CostMetric) (report : Report),
      (store.vetLogged mode g policies).outcome = .ok report →
        ∀ before a after, (report.suggestions store cost).audits = before ++ a :: after →
          report.Misses store mode (before ++ a :: after) (before ++ after) := by
  intro hclaim
  obtain ⟨report, hvet, a, after, haudits, _, hunmissed⟩ := exists_unmissed_workbench
  exact hunmissed (hclaim _ _ _ _ _ versionDistance report hvet [] a after haudits)

end AuditStore

end Vetting
