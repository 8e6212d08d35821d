import Vetting.Proofs.MoreRecords
import Vetting.Suggestion.Batch

/-! Suggested audits that ask for the same review are made one. What any of them is for the merged
audit is for as well, and it is as promising as they are. -/

namespace Vetting

namespace SuggestedAudit

variable {model : CriteriaModel} {store : AuditStore model} {mode : ExemptionMode}
  {a b new : SuggestedAudit} {as proposals : List SuggestedAudit}

/-- What a review is of: where it starts, if it does not take the whole, and where it ends. -/
def review (a : SuggestedAudit) : PackageKey × Option Release :=
  (a.key, a.start.map Version.toRelease)

theorem sameReview_iff : a.sameReview b = true ↔ a.review = b.review := by
  simp only [sameReview, review, key, Bool.and_eq_true, beq_iff_eq, Prod.mk.injEq,
    PackageKey.mk.injEq]
  constructor
  · rintro ⟨⟨hpackage, hstart⟩, htarget⟩
    exact ⟨⟨hpackage, htarget⟩, hstart⟩
  · rintro ⟨⟨hpackage, htarget⟩, hstart⟩
    exact ⟨⟨hpackage, hstart⟩, htarget⟩

theorem key_eq_of_review_eq (h : a.review = b.review) : a.key = b.key := congrArg Prod.fst h

/-- The audit that takes the place of two for the same review. -/
def merged (m : CriteriaModel) (a new : SuggestedAudit) : SuggestedAudit :=
  { new with criteria := m.minimize (a.criteria ∪ new.criteria) }

theorem mem_expand_merged {c : String} : c ∈ model.expand (merged model a new).criteria ↔
    c ∈ model.expand a.criteria ∨ c ∈ model.expand new.criteria := by
  change c ∈ model.expand (model.minimize (a.criteria ∪ new.criteria)) ↔ _
  simp only [model.mem_expand_minimize, model.mem_expand, NameSet.mem_union, or_and_right,
    exists_or]

theorem Promising.merged [SetOrder] (ha : a.Promising store mode) (hnew : new.Promising store mode)
    (hsame : a.review = new.review) : (merged model a new).Promising store mode := by
  obtain ⟨hkey, hstart⟩ := Prod.mk.inj hsame
  have hpackage : a.package = new.package := congrArg PackageKey.package hkey
  have hfrom : ∀ c ∈ model.minimize (a.criteria ∪ new.criteria),
      c ∈ a.criteria ∨ c ∈ new.criteria :=
    fun c hc => NameSet.mem_union.1 (model.mem_minimize.1 hc).1
  constructor
  case known =>
    intro c hc
    rcases hfrom c hc with hc | hc
    · exact ha.known c hc
    · exact hnew.known c hc
  case nonempty =>
    obtain ⟨c, hc⟩ := hnew.nonempty
    obtain ⟨d, hd, _⟩ := model.exists_mem_minimize (NameSet.mem_union.2 (.inr hc))
    exact ⟨d, hd⟩
  case undenied =>
    intro c hc
    rcases hfrom c hc with hc | hc
    · have hundenied := ha.undenied c hc
      rwa [hkey] at hundenied
    · exact hnew.undenied c hc
  case moves => exact hnew.moves
  case based =>
    intro v hv c hc
    rcases hfrom c hc with hc | hc
    · -- The start of the other audit is the same release, if not the same name of it.
      have hv' : new.start = some v := hv
      rw [hv', Option.map_some, Option.map_eq_some_iff] at hstart
      obtain ⟨u, hu, huv⟩ := hstart
      have hholds : c ∈ store.satisfied mode ⟨a.package, u⟩ := ha.based u hu c hc
      have hsame : (⟨a.package, u⟩ : PackageId).key = (⟨new.package, v⟩ : PackageId).key := by
        rw [PackageId.key, PackageId.key, hpackage, huv]
      rwa [AuditStore.satisfied_congr_key hsame] at hholds
    · exact hnew.based v hv c hc

theorem map_review_mergeAudit :
    (mergeAudit model new as).map review =
      if new.review ∈ as.map review then as.map review else as.map review ++ [new.review] := by
  induction as with
  | nil => rfl
  | cons a as ih =>
    rw [mergeAudit]
    by_cases hsame : a.review = new.review
    · rw [if_pos (sameReview_iff.2 hsame), if_pos (by simp [hsame])]
      simp only [List.map_cons, hsame]
      rfl
    · have hdiffers : ¬a.sameReview new = true := mt sameReview_iff.1 hsame
      rw [if_neg hdiffers, List.map_cons, ih]
      have hmem : new.review ∈ (a :: as).map review ↔ new.review ∈ as.map review := by
        rw [List.map_cons, List.mem_cons]
        exact or_iff_right fun h => hsame h.symm
      by_cases hold : new.review ∈ as.map review
      · rw [if_pos hold, if_pos (hmem.2 hold), List.map_cons]
      · rw [if_neg hold, if_neg (mt hmem.1 hold), List.map_cons, List.cons_append]

theorem nodup_mergeAudit (h : (as.map review).Nodup) :
    ((mergeAudit model new as).map review).Nodup := by
  rw [map_review_mergeAudit]
  split
  · exact h
  · next hnew =>
    refine List.nodup_append.2 ⟨h, List.pairwise_singleton _ _, fun x hx y hy hxy => hnew ?_⟩
    rw [← List.mem_singleton.1 hy, ← hxy]
    exact hx

theorem eq_or_merged_of_mem_mergeAudit (h : b ∈ mergeAudit model new as) :
    b ∈ as ∨ b = new ∨ ∃ a ∈ as, a.review = new.review ∧ b = merged model a new := by
  induction as with
  | nil => exact .inr (.inl (List.mem_singleton.1 h))
  | cons a as ih =>
    unfold mergeAudit at h
    split at h
    · next hsame =>
      rcases List.mem_cons.1 h with rfl | h
      · exact .inr (.inr ⟨a, List.mem_cons_self .., sameReview_iff.1 hsame, rfl⟩)
      · exact .inl (List.mem_cons_of_mem _ h)
    · rcases List.mem_cons.1 h with rfl | h
      · exact .inl (List.mem_cons_self ..)
      · rcases ih h with h | h | ⟨a', ha', hmerged⟩
        · exact .inl (List.mem_cons_of_mem _ h)
        · exact .inr (.inl h)
        · exact .inr (.inr ⟨a', List.mem_cons_of_mem _ ha', hmerged⟩)

/-- Whether an audit ends where another does and is for all that the other is for. -/
def Includes (m : CriteriaModel) (a b : SuggestedAudit) : Prop :=
  a.key = b.key ∧ ∀ c ∈ m.expand b.criteria, c ∈ m.expand a.criteria

theorem Includes.refl (a : SuggestedAudit) : Includes model a a := ⟨rfl, fun _ h => h⟩

theorem Includes.trans {c : SuggestedAudit} (h : Includes model a b) (h' : Includes model b c) :
    Includes model a c :=
  ⟨h.1.trans h'.1, fun d hd => h.2 d (h'.2 d hd)⟩

theorem includes_mergeAudit : ∀ b ∈ new :: as, ∃ a ∈ mergeAudit model new as, Includes model a b := by
  induction as with
  | nil =>
    intro b hb
    exact ⟨b, hb, Includes.refl b⟩
  | cons a as ih =>
    obtain ⟨hnew, hold⟩ := List.forall_mem_cons.1 ih
    rw [mergeAudit]
    by_cases hsame : a.review = new.review
    · -- The merged audit is for both; the others stay as they are.
      rw [if_pos (sameReview_iff.2 hsame)]
      have hmerged : merged model a new ∈ merged model a new :: as := List.mem_cons_self ..
      have hkey : (merged model a new).key = a.key := (key_eq_of_review_eq hsame).symm
      refine List.forall_mem_cons.2 ⟨⟨_, hmerged, rfl, fun c hc => ?_⟩,
        List.forall_mem_cons.2 ⟨⟨_, hmerged, hkey, fun c hc => ?_⟩, fun b hb => ?_⟩⟩
      · exact mem_expand_merged.2 (.inr hc)
      · exact mem_expand_merged.2 (.inl hc)
      · exact ⟨b, List.mem_cons_of_mem _ hb, Includes.refl b⟩
    · rw [if_neg (mt sameReview_iff.1 hsame)]
      have hlater : ∀ b, (∃ x ∈ mergeAudit model new as, Includes model x b) →
          ∃ x ∈ a :: mergeAudit model new as, Includes model x b := by
        intro b hb
        obtain ⟨x, hx, hincludes⟩ := hb
        exact ⟨x, List.mem_cons_of_mem _ hx, hincludes⟩
      refine List.forall_mem_cons.2 ⟨hlater new hnew, List.forall_mem_cons.2 ⟨?_, fun b hb => ?_⟩⟩
      · exact ⟨a, List.mem_cons_self .., Includes.refl a⟩
      · exact hlater b (hold b hb)

/-- What merging makes of proposals: each review once, none without a proposal that ends there, and
each proposal included. -/
structure Merges [SetOrder] (model : CriteriaModel) (proposals as : List SuggestedAudit) :
    Prop where
  nodup : (as.map review).Nodup
  origin : ∀ a ∈ as, ∃ b ∈ proposals, b.key = a.key
  included : ∀ b ∈ proposals, ∃ a ∈ as, Includes model a b
  promising : ∀ (store : AuditStore model) (mode : ExemptionMode),
    (∀ b ∈ proposals, b.Promising store mode) → ∀ a ∈ as, a.Promising store mode

theorem merges_nil [SetOrder] : Merges model [] [] where
  nodup := List.nodup_nil
  origin := fun _ ha => absurd ha List.not_mem_nil
  included := fun _ hb => absurd hb List.not_mem_nil
  promising := fun _ _ _ _ ha => absurd ha List.not_mem_nil

theorem Merges.step [SetOrder] (h : Merges model proposals as) (new : SuggestedAudit) :
    Merges model (proposals ++ [new]) (mergeAudit model new as) := by
  have hnew : new ∈ proposals ++ [new] := List.mem_append_right _ (List.mem_singleton.2 rfl)
  have hincludes : ∀ b ∈ new :: as, ∃ a ∈ mergeAudit model new as, Includes model a b :=
    includes_mergeAudit
  constructor
  case nodup => exact nodup_mergeAudit h.nodup
  case origin =>
    intro b hb
    rcases eq_or_merged_of_mem_mergeAudit hb with hold | rfl | ⟨a, _, _, rfl⟩
    · obtain ⟨p, hp, hkey⟩ := h.origin b hold
      exact ⟨p, List.mem_append_left _ hp, hkey⟩
    · exact ⟨b, hnew, rfl⟩
    · exact ⟨new, hnew, rfl⟩
  case included =>
    intro b hb
    rcases List.mem_append.1 hb with hb | hb
    · obtain ⟨a, ha, hab⟩ := h.included b hb
      obtain ⟨x, hx, hxa⟩ := hincludes a (List.mem_cons_of_mem _ ha)
      exact ⟨x, hx, hxa.trans hab⟩
    · obtain rfl := List.mem_singleton.1 hb
      exact hincludes b (List.mem_cons_self ..)
  case promising =>
    intro store mode hall b hb
    have hpromising := h.promising store mode fun p hp => hall p (List.mem_append_left _ hp)
    rcases eq_or_merged_of_mem_mergeAudit hb with hold | rfl | ⟨a, ha, hsame, rfl⟩
    · exact hpromising b hold
    · exact hall b hnew
    · exact (hpromising a ha).merged (hall new hnew) hsame

theorem Merges.foldl [SetOrder] (h : Merges model proposals as) (more : List SuggestedAudit) :
    Merges model (proposals ++ more) (more.foldl (fun as a => mergeAudit model a as) as) := by
  induction more generalizing proposals as with
  | nil => rwa [List.append_nil]
  | cons new more ih =>
    have hrest := ih (h.step new)
    rwa [List.append_assoc] at hrest

end SuggestedAudit

namespace SuggestionSet

variable {model : CriteriaModel} {results : List SuggestionResult}

theorem merges_ofResults [SetOrder] :
    SuggestedAudit.Merges model (results.filterMap fun r => r.suggestion.audit?)
      (ofResults model results).audits := by
  have hnil : SuggestedAudit.Merges model [] [] := SuggestedAudit.merges_nil
  have hmerged := hnil.foldl (results.filterMap fun r => r.suggestion.audit?)
  rw [List.nil_append] at hmerged
  have hperm := sortBy_perm SuggestedAudit.precedes
    ((results.filterMap fun r => r.suggestion.audit?).foldl (fun as a => mergeAudit model a as) [])
  have hmem : ∀ a, a ∈ (ofResults model results).audits ↔ a ∈
      (results.filterMap fun r => r.suggestion.audit?).foldl (fun as a => mergeAudit model a as) [] :=
    fun a => hperm.mem_iff
  constructor
  case nodup => exact (hperm.map _).nodup_iff.2 hmerged.nodup
  case origin => exact fun a ha => hmerged.origin a ((hmem a).1 ha)
  case included =>
    intro b hb
    obtain ⟨a, ha, hab⟩ := hmerged.included b hb
    exact ⟨a, (hmem a).2 ha, hab⟩
  case promising =>
    exact fun store mode hall a ha => hmerged.promising store mode hall a ((hmem a).1 ha)

end SuggestionSet

end Vetting
