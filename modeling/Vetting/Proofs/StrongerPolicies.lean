import Vetting.Proofs.GrowingRequirements
import Vetting.Proofs.SuggestedVet

/-! Policies that ask for stronger criteria. What implies the run tier stays in force on the way down
a graph, but below an edge that only builds or tests no more than the run tier is left of it, so
that what else it implies can be dropped there. -/

namespace Vetting

namespace CriteriaModel

variable {m : CriteriaModel} {c : String}

theorem eq_safeToRun_of_mem_closure (h : c ∈ m.closure safeToRun) : c = safeToRun := by
  have hbuiltin : isBuiltin safeToRun = true := by decide +kernel
  have hc : c ∈ builtin.closure safeToRun := (mem_closure_of_isBuiltin hbuiltin h).2
  have hsole : builtin.closure safeToRun = .single safeToRun := by decide +kernel
  rw [hsole] at hc
  exact NameSet.mem_single.1 hc

end CriteriaModel

namespace Propagator

variable {model : CriteriaModel} {policies policies' : PolicyTable} {g : DependencyGraph}
  {R : PackageKey → NameSet} {parent child : PackageId} {kind : DependencyKind}
  {required : NameSet} {c d : String} {k : PackageKey} {e : Dependency}

/-- The propagator of policies alone, which asks no records. -/
def ofPolicies [SetOrder] (model : CriteriaModel) (policies : PolicyTable) : Propagator :=
  through policies (none : Option (AuditStore model × ExemptionMode))

theorem lawful_ofPolicies [SetOrder] (h : policies.check model = .ok ()) :
    (ofPolicies model policies).Lawful := lawful_through h none

theorem owed_firstParty [SetOrder] (h : g.isFirstParty parent.key = true) :
    (ofPolicies model policies).owed g parent child kind required =
      policies.requiredOf parent.package child.package kind := if_pos h

theorem mem_owed_thirdParty [SetOrder] (h : g.isFirstParty parent.key = false) :
    d ∈ (ofPolicies model policies).owed g parent child kind required ↔
      ∃ c ∈ required, d = if kind.isRunTier && model.implies c safeToRun then safeToRun else c := by
  have hnone : ∀ c, (ofPolicies model policies).override? parent c child.package = none :=
    fun _ => rfl
  rw [owed, if_neg (by simp [h]), mem_passedOn]
  simp only [hnone, true_and, reduceCtorEq, false_and, exists_false, false_or]
  exact Iff.rfl

/-- Whether a criterion is dropped before a package: on the way to it a third-party package that
owes what implies both the run tier and the criterion passes on the run tier alone. -/
inductive Dropped (model : CriteriaModel) (g : DependencyGraph) (R : PackageKey → NameSet)
    (c : String) : PackageKey → Prop
  | here {e : Dependency} {d : String} (he : e ∈ g.edges)
      (hthird : g.isFirstParty e.parent.key = false) (hkind : e.kind.isRunTier = true)
      (hd : d ∈ R e.parent.key) (hrun : safeToRun ∈ model.closure d) (hc : c ∈ model.closure d) :
      Dropped model g R c e.child.key
  | onward {e : Dependency} (he : e ∈ g.edges) (hthird : g.isFirstParty e.parent.key = false)
      (h : Dropped model g R c e.parent.key) : Dropped model g R c e.child.key

/-- Whether a criterion is implied by what is required of a package, or was dropped before it as
one that does not imply the run tier. -/
def KeptOrDropped (model : CriteriaModel) (g : DependencyGraph) (R : PackageKey → NameSet)
    (k : PackageKey) (c : String) : Prop :=
  c ∈ model.expand (R k) ∨ (safeToRun ∉ model.closure c ∧ Dropped model g R c k)

/-- What is kept or dropped at a third-party package is so one edge further down, apart from what
the edge turns into the run tier. -/
theorem KeptOrDropped.onward [SetOrder] (h : KeptOrDropped model g R e.parent.key c)
    (he : e ∈ g.edges) (hthird : g.isFirstParty e.parent.key = false)
    (hmeets : ∀ c ∈ (ofPolicies model policies).owed g e.parent e.child e.kind (R e.parent.key),
      c ∈ R e.child.key)
    (hkept : e.kind.isRunTier = true → safeToRun ∉ model.closure c) :
    KeptOrDropped model g R e.child.key c := by
  rcases h with hc | ⟨huntiered, hdropped⟩
  · obtain ⟨d, hd, hcd⟩ := model.mem_expand.1 hc
    by_cases hrun : e.kind.isRunTier = true ∧ safeToRun ∈ model.closure d
    · exact .inr ⟨hkept hrun.1, .here he hthird hrun.1 hd hrun.2 hcd⟩
    · refine .inl (model.mem_expand.2 ⟨d, hmeets d ?_, hcd⟩)
      rw [mem_owed_thirdParty hthird]
      refine ⟨d, hd, (if_neg fun hboth => hrun ?_).symm⟩
      rw [Bool.and_eq_true, model.implies_iff] at hboth
      exact hboth
  · exact .inr ⟨huntiered, .onward he hthird hdropped⟩

/-- The run tier goes down every edge. -/
theorem KeptOrDropped.safeToRun_onward [SetOrder]
    (h : KeptOrDropped model g R e.parent.key safeToRun)
    (hthird : g.isFirstParty e.parent.key = false)
    (hmeets : ∀ c ∈ (ofPolicies model policies).owed g e.parent e.child e.kind (R e.parent.key),
      c ∈ R e.child.key) :
    KeptOrDropped model g R e.child.key safeToRun := by
  have hself : safeToRun ∈ model.closure safeToRun := model.self_mem_closure safeToRun
  rcases h with hc | ⟨huntiered, _⟩
  · obtain ⟨d, hd, hrun⟩ := model.mem_expand.1 hc
    cases hkind : e.kind.isRunTier with
    | true =>
      refine .inl (model.mem_expand.2 ⟨safeToRun, hmeets _ ?_, hself⟩)
      rw [mem_owed_thirdParty hthird]
      refine ⟨d, hd, (if_pos ?_).symm⟩
      rw [Bool.and_eq_true, model.implies_iff]
      exact ⟨hkind, hrun⟩
    | false =>
      refine .inl (model.mem_expand.2 ⟨d, hmeets d ?_, hrun⟩)
      rw [mem_owed_thirdParty hthird]
      exact ⟨d, hd, by simp [hkind]⟩
  · exact absurd hself huntiered

/-- One edge: where all that a criterion implies is kept or dropped at the parent, all that is
implied by what becomes of the criterion is kept or dropped at the child. -/
theorem keptOrDropped_passed [SetOrder] (he : e ∈ g.edges)
    (hthird : g.isFirstParty e.parent.key = false)
    (hmeets : ∀ c ∈ (ofPolicies model policies).owed g e.parent e.child e.kind (R e.parent.key),
      c ∈ R e.child.key)
    (hparent : ∀ t ∈ model.closure c, KeptOrDropped model g R e.parent.key t) :
    ∀ t ∈ model.closure (if e.kind.isRunTier && model.implies c safeToRun then safeToRun else c),
      KeptOrDropped model g R e.child.key t := by
  intro t ht
  by_cases hrun : (e.kind.isRunTier && model.implies c safeToRun) = true
  · rw [if_pos hrun] at ht
    rw [Bool.and_eq_true, model.implies_iff] at hrun
    have hparent' := hparent safeToRun hrun.2
    rw [CriteriaModel.eq_safeToRun_of_mem_closure ht]
    exact hparent'.safeToRun_onward hthird hmeets
  · rw [if_neg hrun] at ht
    refine (hparent t ht).onward he hthird hmeets fun hkind htiered => hrun ?_
    -- A criterion that implies something of the run tier is of the run tier itself.
    rw [Bool.and_eq_true, model.implies_iff]
    exact ⟨hkind, model.closure_trans ht htiered⟩

/-- Policies that ask for stronger criteria weaken nothing but what the run tier leaves out. -/
theorem keptOrDropped_of_propagate [SetOrder] (hcheck : policies.check model = .ok ())
    (hcheck' : policies'.check model = .ok ())
    (hstronger : ∀ a d kind, ∀ c ∈ model.expand (policies.requiredOf a d kind),
      c ∈ model.expand (policies'.requiredOf a d kind))
    {r r' : Requirements} (hr : (ofPolicies model policies).propagate g = .ok r)
    (hr' : (ofPolicies model policies').propagate g = .ok r') :
    ∀ k ∈ g.members.map Member.key, ∀ c ∈ model.expand (r.of k), KeptOrDropped model g r'.of k c := by
  classical
  have hp := lawful_ofPolicies hcheck
  have hp' := lawful_ofPolicies hcheck'
  -- Of the criteria all of which is kept or dropped, the first run finds no others anywhere.
  let fine : PackageKey → NameSet := fun k =>
    model.names.filter fun c => decide (∀ t ∈ model.closure c, KeptOrDropped model g r'.of k t)
  have hfine : ∀ k c, c ∈ fine k ↔
      c ∈ model ∧ ∀ t ∈ model.closure c, KeptOrDropped model g r'.of k t := by
    intro k c
    rw [NameSet.mem_filter, decide_eq_true_eq]
    exact Iff.rfl
  have hleast : ∀ k ∈ g.members.map Member.key, ∀ c ∈ r.of k, c ∈ fine k := by
    apply least_of_propagate hp hr
    intro e he hchild c hc
    have hmeets : ∀ c ∈ (ofPolicies model policies').owed g e.parent e.child e.kind
        (r'.of e.parent.key), c ∈ r'.of e.child.key :=
      fun c hc => required_of_owed hp' hr' he hchild hc
    refine (hfine _ c).2 ⟨?_, ?_⟩
    · exact known_of_mem_owed hp (fun d hd => ((hfine _ d).1 hd).1) hc
    cases hparent : g.isFirstParty e.parent.key with
    | true =>
      rw [owed_firstParty hparent] at hc hmeets
      intro t ht
      have hexpand := hstronger _ _ _ t (model.mem_expand.2 ⟨c, hc, ht⟩)
      obtain ⟨d, hd, htd⟩ := model.mem_expand.1 hexpand
      exact .inl (model.mem_expand.2 ⟨d, hmeets d hd, htd⟩)
    | false =>
      obtain ⟨d, hd, rfl⟩ := (mem_owed_thirdParty hparent).1 hc
      exact keptOrDropped_passed he hparent hmeets ((hfine _ d).1 hd).2
  intro k hk c hc
  obtain ⟨d, hd, hcd⟩ := model.mem_expand.1 hc
  exact ((hfine k d).1 (hleast k hk d hd)).2 c hcd

/-- Where a model has no criterion that implies both the run tier and something untiered, nothing
is dropped. -/
theorem KeptOrDropped.kept (h : KeptOrDropped model g R k c)
    (huniform : ∀ d, safeToRun ∈ model.closure d →
      ∀ c ∈ model.closure d, safeToRun ∈ model.closure c) : c ∈ model.expand (R k) := by
  rcases h with hkept | ⟨huntiered, hdropped⟩
  · exact hkept
  · have hnever : ∀ j, ¬Dropped model g R c j := by
      intro j hj
      induction hj with
      | here _ _ _ _ hrun hc => exact huntiered (huniform _ hrun c hc)
      | onward _ _ _ ih => exact ih
    exact absurd hdropped (hnever k)

/-- Stronger policies require no less of any package, unless a criterion is dropped on the way; and
no less at all where criteria imply tiered criteria or untiered ones, but not both. -/
theorem stronger_policies_require_no_less [SetOrder] (hg : g.Acyclic)
    (hcheck : policies.check model = .ok ()) (hcheck' : policies'.check model = .ok ())
    (hstronger : ∀ a d kind, ∀ c ∈ model.expand (policies.requiredOf a d kind),
      c ∈ model.expand (policies'.requiredOf a d kind)) :
    ∃ r r', (ofPolicies model policies).propagate g = .ok r ∧
      (ofPolicies model policies').propagate g = .ok r' ∧
        (∀ k ∈ g.members.map Member.key, ∀ c ∈ model.expand (r.of k), c ∈ model.expand (r'.of k) ∨
          (safeToRun ∉ model.closure c ∧ Dropped model g r'.of c k)) ∧
        ((∀ d, safeToRun ∈ model.closure d → ∀ c ∈ model.closure d, safeToRun ∈ model.closure c) →
          ∀ k ∈ g.members.map Member.key, ∀ c ∈ model.expand (r.of k),
            c ∈ model.expand (r'.of k)) := by
  obtain ⟨r, hr⟩ := exists_propagate (lawful_ofPolicies hcheck) hg
  obtain ⟨r', hr'⟩ := exists_propagate (lawful_ofPolicies hcheck') hg
  have hall := keptOrDropped_of_propagate hcheck hcheck' hstronger hr hr'
  exact ⟨r, r', hr, hr', hall, fun huniform k hk c hc => (hall k hk c hc).kept huniform⟩

/-- The application asks its normal dependencies for some criteria. -/
def appPolicies (criteria : NameSet) : PolicyTable where
  policies := (∅ : NameMap Policy).insert "app" { criteria := some criteria }

theorem requiredOf_appPolicies {s : NameSet} {a dependency : String} :
    (appPolicies s).requiredOf a dependency kind =
      if a = "app" ∧ kind = .normal then s else ({} : PolicyTable).requiredOf a dependency kind := by
  rw [PolicyTable.requiredOf, PolicyTable.policyOf, appPolicies, NameMap.get?_insert]
  by_cases ha : a = "app"
  · rw [if_pos ha]
    cases kind with
    | normal => rw [if_pos ⟨ha, rfl⟩]; rfl
    | build => rw [if_neg (by simp)]; rfl
    | dev => rw [if_neg (by simp)]; rfl
  · rw [if_neg ha, if_neg fun h => ha h.1]
    rfl

theorem stronger_appPolicies {s t : NameSet} (h : ∀ c ∈ model.expand s, c ∈ model.expand t)
    (a dependency : String) (kind : DependencyKind) :
    ∀ c ∈ model.expand ((appPolicies s).requiredOf a dependency kind),
      c ∈ model.expand ((appPolicies t).requiredOf a dependency kind) := by
  intro c hc
  rw [requiredOf_appPolicies] at hc ⊢
  split
  · next happ =>
    rw [if_pos happ] at hc
    exact h c hc
  · next happ => rwa [if_neg happ] at hc

theorem acyclic_pipeline : AuditStore.pipeline.Acyclic :=
  DependencyGraph.acyclic_iff.2 (if_pos (by decide +kernel))

theorem stronger_policies_require_no_less_pipeline :
    AuditStore.pipeline.Acyclic ∧ (appPolicies (.single safeToRun)).check .builtin = .ok () ∧
      (appPolicies (.single safeToDeploy)).check .builtin = .ok () ∧
        ∃ r r', (ofPolicies .builtin (appPolicies (.single safeToRun))).propagate
            AuditStore.pipeline = .ok r ∧
          (ofPolicies .builtin (appPolicies (.single safeToDeploy))).propagate
            AuditStore.pipeline = .ok r' ∧
          ∀ k ∈ AuditStore.pipeline.members.map Member.key,
            ∀ c ∈ CriteriaModel.builtin.expand (r.of k), c ∈ CriteriaModel.builtin.expand (r'.of k) := by
  have hcheck : (appPolicies (.single safeToRun)).check .builtin = .ok () :=
    PolicyTable.check_eq_ok_iff.2 (by decide +kernel)
  have hcheck' : (appPolicies (.single safeToDeploy)).check .builtin = .ok () :=
    PolicyTable.check_eq_ok_iff.2 (by decide +kernel)
  have hexpand : ∀ c ∈ CriteriaModel.builtin.expand (.single safeToRun),
      c ∈ CriteriaModel.builtin.expand (.single safeToDeploy) := by
    show ∀ c ∈ (CriteriaModel.builtin.expand (.single safeToRun)).toList, _
    decide +kernel
  have huniform : ∀ d, safeToRun ∈ CriteriaModel.builtin.closure d →
      ∀ c ∈ CriteriaModel.builtin.closure d, safeToRun ∈ CriteriaModel.builtin.closure c := by
    intro d hd
    have hknown : d ∈ CriteriaModel.builtin :=
      CriteriaModel.left_mem_of_mem_closure CriteriaModel.safeToRun_mem hd
    have hall : ∀ d ∈ CriteriaModel.builtin.names.toList, ∀ c ∈ (CriteriaModel.builtin.closure d).toList,
        safeToRun ∈ CriteriaModel.builtin.closure c := by decide +kernel
    exact hall d hknown
  obtain ⟨r, r', hr, hr', _, hall⟩ := stronger_policies_require_no_less acyclic_pipeline hcheck
    hcheck' (stronger_appPolicies hexpand)
  exact ⟨acyclic_pipeline, hcheck, hcheck', r, r', hr, hr', hall huniform⟩

/-- A criterion about licences, and an audit that is about them and about being safe to run. -/
def licensing : CriteriaModel where
  custom := [{ name := "licensed" },
    { name := "audited", implies := .ofList ["licensed", safeToRun] }]
  faultless := by decide +kernel

/-- Asking for an audit in place of a licence drops the licence on the way to what the middle package
is built with: an audit implies the run tier, and no more than that is passed on. -/
theorem exists_stronger_policies_that_require_less :
    ¬∀ (model : CriteriaModel) (g : DependencyGraph) (policies policies' : PolicyTable)
      (r r' : Requirements), g.Acyclic → policies.check model = .ok () →
        policies'.check model = .ok () →
          (∀ a d kind, ∀ c ∈ model.expand (policies.requiredOf a d kind),
            c ∈ model.expand (policies'.requiredOf a d kind)) →
              (ofPolicies model policies).propagate g = .ok r →
                (ofPolicies model policies').propagate g = .ok r' →
                  ∀ k ∈ g.members.map Member.key, ∀ c ∈ model.expand (r.of k),
                    c ∈ model.expand (r'.of k) := by
  intro hclaim
  let base : PackageKey := ⟨"base", { major := 1, minor := 0, patch := 0 }⟩
  obtain ⟨r, hr, hheld⟩ : ∃ r, (ofPolicies licensing (appPolicies (.single "licensed"))).propagate
      AuditStore.pipeline = .ok r ∧ decide ("licensed" ∈ licensing.expand (r.of base)) = true :=
    exists_ok_of_any (by decide +kernel)
  obtain ⟨r', hr', hdropped⟩ : ∃ r', (ofPolicies licensing
      (appPolicies (.single "audited"))).propagate AuditStore.pipeline = .ok r' ∧
        decide ("licensed" ∉ licensing.expand (r'.of base)) = true :=
    exists_ok_of_any (by decide +kernel)
  have hcheck : (appPolicies (.single "licensed")).check licensing = .ok () :=
    PolicyTable.check_eq_ok_iff.2 (by decide +kernel)
  have hcheck' : (appPolicies (.single "audited")).check licensing = .ok () :=
    PolicyTable.check_eq_ok_iff.2 (by decide +kernel)
  have hexpand : ∀ c ∈ licensing.expand (.single "licensed"),
      c ∈ licensing.expand (.single "audited") := by
    show ∀ c ∈ (licensing.expand (.single "licensed")).toList, _
    decide +kernel
  have hbase : base ∈ AuditStore.pipeline.members.map Member.key := by decide +kernel
  have hkept := hclaim licensing AuditStore.pipeline _ _ r r' acyclic_pipeline hcheck hcheck'
    (stronger_appPolicies hexpand) hr hr' base hbase "licensed" (of_decide_eq_true hheld)
  exact of_decide_eq_true hdropped hkept

end Propagator

end Vetting
