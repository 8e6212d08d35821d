import Vetting.Proofs.MergedReviews

/-! What suggested audits satisfy when they are performed together: what one of them serves, and
nothing else. An audit serves a criterion where it ends and wherever records lead from there. -/

namespace Vetting

namespace AuditStore

variable {model : CriteriaModel} {store : AuditStore model} {mode : ExemptionMode}
  {package c : String} {chain records : List AuditRecord} {u v : Release}

/-- Whether a record that counts for a criterion leads from one release to another. -/
def Passes (store : AuditStore model) (mode : ExemptionMode) (package criterion : String)
    (u v : Release) : Prop :=
  ∃ r, store.Counts mode package criterion r ∧ r.Leads u v

theorem Passes.withRecords (h : store.Passes mode package c u v) (records : List AuditRecord) :
    (store.withRecords records).Passes mode package c u v := by
  obtain ⟨r, hcounts, hleads⟩ := h
  exact ⟨r, hcounts.withRecords records, hleads⟩

theorem exists_chain_of_passes (h : Relation.ReflTransGen (store.Passes mode package c) u v)
    (hchain : ∃ chain, store.Chain mode package c chain u) :
    ∃ chain, store.Chain mode package c chain v := by
  induction h with
  | refl => exact hchain
  | tail _ hstep ih =>
    obtain ⟨chain, hbefore⟩ := ih
    obtain ⟨r, hcounts, hleads⟩ := hstep
    exact ⟨chain ++ [r], .led hbefore hcounts hleads⟩

end AuditStore

namespace SuggestedAudit

variable {model : CriteriaModel} {store : AuditStore model} {mode : ExemptionMode}
  {a b new : SuggestedAudit} {as proposals : List SuggestedAudit} {chain : List AuditRecord}
  {package c : String} {u v : Release} {id : PackageId} {review : PackageKey × Option Release}

theorem target_of_vouches_toRecord (h : a.toRecord.Vouches v) : a.target.toRelease = v := by
  unfold toRecord reviewRecord at h
  split at h
  · exact h.elim
  · exact h

theorem target_of_leads_toRecord (h : a.toRecord.Leads u v) : a.target.toRelease = v := by
  unfold toRecord reviewRecord at h
  split at h
  · exact h.2
  · exact h.elim

/-- Whether performing an audit makes a version satisfy a criterion that nothing denies it: the
audit is for what implies it, and records lead to the version from where the audit ends. -/
structure Serves (store : AuditStore model) (mode : ExemptionMode) (id : PackageId)
    (criterion : String) (a : SuggestedAudit) : Prop where
  package_eq : a.package = id.package
  covers : criterion ∈ model.expand a.criteria
  undenied : store.Undenied id.key criterion
  passes : Relation.ReflTransGen (store.Passes mode id.package criterion) a.target.toRelease
    id.version.toRelease

/-- A chain that audits give rise to was there before, or goes on from where one of them ends. -/
theorem exists_chain_or_passes
    (h : (store.withRecords (as.map fun a => a.toRecord)).Chain mode package c chain v) :
    (∃ chain, store.Chain mode package c chain v) ∨
      ∃ a ∈ as, a.package = package ∧ c ∈ model.expand a.criteria ∧
        Relation.ReflTransGen (store.Passes mode package c) a.target.toRelease v := by
  have hnew : ∀ r, (store.withRecords (as.map fun a => a.toRecord)).Counts mode package c r →
      store.Counts mode package c r ∨ ∃ a ∈ as, r = a.toRecord ∧ a.package = package ∧
        c ∈ model.expand a.criteria := by
    intro r hr
    rcases AuditStore.mem_accepted_withRecords.1 hr.accepted with hold | ⟨hmem, _⟩
    · exact .inl ⟨hold, hr.filed, hr.admitted, hr.implies⟩
    · obtain ⟨a, ha, rfl⟩ := List.mem_map.1 hmem
      obtain ⟨d, hd, hcd⟩ := hr.implies
      rw [criteria_toRecord] at hd
      exact .inr ⟨a, ha, rfl, package_toRecord.symm.trans hr.filed, model.mem_expand.2 ⟨d, hd, hcd⟩⟩
  induction h with
  | vouched hcounts hvouches =>
    rcases hnew _ hcounts with hold | ⟨a, ha, rfl, hpackage, hcovers⟩
    · exact .inl ⟨_, .vouched hold hvouches⟩
    · refine .inr ⟨a, ha, hpackage, hcovers, ?_⟩
      rw [target_of_vouches_toRecord hvouches]
  | led _ hcounts hleads ih =>
    rcases hnew _ hcounts with hold | ⟨a, ha, rfl, hpackage, hcovers⟩
    · rcases ih with ⟨before, hbefore⟩ | ⟨a, ha, hpackage, hcovers, hpasses⟩
      · exact .inl ⟨_, .led hbefore hold hleads⟩
      · exact .inr ⟨a, ha, hpackage, hcovers, hpasses.tail ⟨_, hold, hleads⟩⟩
    · refine .inr ⟨a, ha, hpackage, hcovers, ?_⟩
      rw [target_of_leads_toRecord hleads]

theorem Promising.satisfied_of_serves [SetOrder] (ha : a.Promising store mode) (hmem : a ∈ as)
    (h : a.Serves store mode id c) :
    c ∈ (store.withRecords (as.map fun a => a.toRecord)).satisfied mode id := by
  have hpositive : ∀ r ∈ as.map fun a => a.toRecord, r.violation? = none := by
    intro r hr
    obtain ⟨b, _, rfl⟩ := List.mem_map.1 hr
    exact violation?_toRecord
  have hrecord : a.toRecord ∈ as.map fun a => a.toRecord := List.mem_map_of_mem hmem
  obtain ⟨hc, _, hchain⟩ := AuditStore.mem_satisfied_iff_chain.1
    (ha.satisfied hrecord hpositive h.covers)
  rw [h.package_eq] at hchain
  have hpasses := Relation.ReflTransGen.mono (fun _ _ hstep =>
    AuditStore.Passes.withRecords hstep (as.map fun a => a.toRecord)) _ _ h.passes
  exact AuditStore.mem_satisfied_iff_chain.2
    ⟨hc, h.undenied.withRecords hpositive, AuditStore.exists_chain_of_passes hpasses hchain⟩

/-- What some audits together satisfy one of them does, unless it was satisfied before. -/
theorem mem_satisfied_withRecords_iff [SetOrder] (hall : ∀ a ∈ as, a.Promising store mode) :
    c ∈ (store.withRecords (as.map fun a => a.toRecord)).satisfied mode id ↔
      c ∈ store.satisfied mode id ∨ ∃ a ∈ as, a.Serves store mode id c := by
  constructor
  · intro h
    obtain ⟨hc, hfree, chain, hchain⟩ := AuditStore.mem_satisfied_iff_chain.1 h
    have hundenied : store.Undenied id.key c :=
      fun r hr => hfree r (AuditStore.mem_accepted_withRecords.2 (.inl hr))
    rcases exists_chain_or_passes hchain with hold | ⟨a, ha, hpackage, hcovers, hpasses⟩
    · exact .inl (AuditStore.mem_satisfied_iff_chain.2 ⟨hc, hundenied, hold⟩)
    · exact .inr ⟨a, ha, hpackage, hcovers, hundenied, hpasses⟩
  · rintro (hold | ⟨a, ha, hserves⟩)
    · refine AuditStore.satisfied_withRecords hold fun r hr => ?_
      obtain ⟨a, _, rfl⟩ := List.mem_map.1 hr
      exact violation?_toRecord
    · exact (hall a ha).satisfied_of_serves ha hserves

/-- What merging gathers: criteria of proposals for the same review, and all that these cover. -/
structure Gathers (model : CriteriaModel) (proposals as : List SuggestedAudit) : Prop where
  origin : ∀ a ∈ as, ∀ c ∈ a.criteria, ∃ b ∈ proposals, b.review = a.review ∧ c ∈ b.criteria
  covered : ∀ b ∈ proposals, ∀ c ∈ model.expand b.criteria,
    ∃ a ∈ as, a.review = b.review ∧ c ∈ model.expand a.criteria

theorem exists_covering_mergeAudit (ha : a ∈ new :: as) (hc : c ∈ model.expand a.criteria) :
    ∃ b ∈ mergeAudit model new as, b.review = a.review ∧ c ∈ model.expand b.criteria := by
  induction as with
  | nil => exact ⟨a, ha, rfl, hc⟩
  | cons first as ih =>
    rw [mergeAudit]
    by_cases hsame : first.review = new.review
    · rw [if_pos (sameReview_iff.2 hsame)]
      rcases List.mem_cons.1 ha with rfl | ha
      · exact ⟨_, List.mem_cons_self .., rfl, mem_expand_merged.2 (.inr hc)⟩
      · rcases List.mem_cons.1 ha with rfl | ha
        · exact ⟨_, List.mem_cons_self .., hsame.symm, mem_expand_merged.2 (.inl hc)⟩
        · exact ⟨a, List.mem_cons_of_mem _ ha, rfl, hc⟩
    · rw [if_neg (mt sameReview_iff.1 hsame)]
      have hlater : a ∈ new :: as → ∃ b ∈ first :: mergeAudit model new as,
          b.review = a.review ∧ c ∈ model.expand b.criteria := by
        intro hrest
        obtain ⟨b, hb, hreview, hcovers⟩ := ih hrest
        exact ⟨b, List.mem_cons_of_mem _ hb, hreview, hcovers⟩
      rcases List.mem_cons.1 ha with rfl | ha
      · exact hlater (List.mem_cons_self ..)
      · rcases List.mem_cons.1 ha with rfl | ha
        · exact ⟨a, List.mem_cons_self .., rfl, hc⟩
        · exact hlater (List.mem_cons_of_mem _ ha)

theorem Gathers.step (h : Gathers model proposals as) (new : SuggestedAudit) :
    Gathers model (proposals ++ [new]) (mergeAudit model new as) := by
  have hnew : new ∈ proposals ++ [new] := List.mem_append_right _ (List.mem_singleton.2 rfl)
  have hearlier : ∀ a ∈ as, ∀ c ∈ a.criteria,
      ∃ b ∈ proposals ++ [new], b.review = a.review ∧ c ∈ b.criteria := by
    intro a ha c hc
    obtain ⟨b, hb, hreview, hmem⟩ := h.origin a ha c hc
    exact ⟨b, List.mem_append_left _ hb, hreview, hmem⟩
  constructor
  case origin =>
    intro a ha c hc
    rcases eq_or_merged_of_mem_mergeAudit ha with hold | rfl | ⟨b, hb, hsame, rfl⟩
    · exact hearlier a hold c hc
    · exact ⟨a, hnew, rfl, hc⟩
    · rcases NameSet.mem_union.1 (model.mem_minimize.1 hc).1 with hc | hc
      · obtain ⟨p, hp, hreview, hmem⟩ := hearlier b hb c hc
        exact ⟨p, hp, hreview.trans hsame, hmem⟩
      · exact ⟨new, hnew, rfl, hc⟩
  case covered =>
    intro b hb c hc
    rcases List.mem_append.1 hb with hb | hb
    · obtain ⟨a, ha, hreview, hcovers⟩ := h.covered b hb c hc
      have hlater : a ∈ new :: as := List.mem_cons_of_mem _ ha
      obtain ⟨x, hx, hsame, hmerged⟩ := exists_covering_mergeAudit hlater hcovers
      exact ⟨x, hx, hsame.trans hreview, hmerged⟩
    · obtain rfl := List.mem_singleton.1 hb
      exact exists_covering_mergeAudit (List.mem_cons_self ..) hc

theorem Gathers.foldl (h : Gathers model proposals as) (more : List SuggestedAudit) :
    Gathers model (proposals ++ more) (more.foldl (fun as a => mergeAudit model a as) as) := by
  induction more generalizing proposals as with
  | nil => rwa [List.append_nil]
  | cons new more ih =>
    have hrest := ih (h.step new)
    rwa [List.append_assoc] at hrest

theorem gathers_ofResults {results : List SuggestionResult} :
    Gathers model (results.filterMap fun r => r.suggestion.audit?)
      (SuggestionSet.ofResults model results).audits := by
  have hnil : Gathers model [] [] :=
    ⟨fun _ ha => absurd ha List.not_mem_nil, fun _ hb => absurd hb List.not_mem_nil⟩
  have hgathered := hnil.foldl (results.filterMap fun r => r.suggestion.audit?)
  rw [List.nil_append] at hgathered
  constructor
  case origin => exact fun a ha => hgathered.origin a (mem_sortBy.1 ha)
  case covered =>
    intro b hb c hc
    obtain ⟨a, ha, hreview, hcovers⟩ := hgathered.covered b hb c hc
    exact ⟨a, mem_sortBy.2 ha, hreview, hcovers⟩

end SuggestedAudit

end Vetting
