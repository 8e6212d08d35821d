import Vetting.Proofs.PassingVet

/-! Stricter and more lenient modes. What satisfies a criterion under a mode does under every more
lenient one. A vet that passes can still fail under a more lenient mode, for exemptions that are
admitted there may lead to other records, which ask more of dependencies. -/

namespace Vetting

namespace ExemptionMode

variable {m n : ExemptionMode} {r : AuditRecord}

def leniency : ExemptionMode → Nat
  | deny => 0
  | confirmedOnly => 1
  | allow => 2

def StricterThan (m n : ExemptionMode) : Prop := m.leniency < n.leniency

instance : Decidable (m.StricterThan n) := inferInstanceAs (Decidable (_ < _))

theorem admits_of_stricterThan (h : m.StricterThan n) (hr : m.admits r = true) :
    n.admits r = true := by
  cases n with
  | allow => rfl
  | deny => exact absurd h (Nat.not_lt_zero _)
  | confirmedOnly =>
    cases m with
    | allow => exact absurd h (by decide)
    | confirmedOnly => exact absurd h (by decide)
    | deny =>
      cases r with
      | exemption => cases hr
      | _ => rfl

end ExemptionMode

namespace Propagator

variable {p q : Propagator} {g : DependencyGraph} {order : List PackageId} {r s : Requirements}
  {R : PackageKey → NameSet}

/-- Of all assignments that meet what is owed over every edge, propagation finds the least. -/
theorem Progress.of_least (hp : p.Lawful) (h : p.Progress g order r.sent)
    (hall : ∀ k ∈ g.members.map Member.key, k ∈ order.map PackageId.key)
    {done : List PackageKey} {vs : List PackageId}
    (horder : DependencyGraph.DependentsFirst g.edges done vs)
    (hmeets : ∀ e ∈ g.edges, g.isFirstParty e.child.key = false →
      ∀ c ∈ p.owed g e.parent e.child e.kind (R e.parent.key), c ∈ R e.child.key)
    (hdone : ∀ k ∈ done, ∀ c ∈ r.of k, c ∈ R k) : ∀ v ∈ vs, ∀ c ∈ r.of v.key, c ∈ R v.key := by
  induction vs generalizing done with
  | nil => exact fun v hv => absurd hv List.not_mem_nil
  | cons v vs ih =>
    obtain ⟨hwait, hrest⟩ := horder
    have hv : ∀ c ∈ r.of v.key, c ∈ R v.key := by
      intro c hc
      cases hfirst : g.isFirstParty v.key with
      | true =>
        rw [Requirements.of, Requirements.sumFor, h.filter_sent_firstParty hfirst] at hc
        exact absurd hc (NameSet.not_mem_empty c)
      | false =>
        obtain ⟨e, he, hce⟩ := (h.mem_of hp hall hfirst).1 hc
        obtain ⟨hedge, hchild⟩ := DependencyGraph.mem_dependents.1 he
        have hmore := owed_mono (hdone _ (hwait e hedge hchild)) hce
        exact hchild ▸ hmeets e hedge (hchild ▸ hfirst) c hmore
    exact List.forall_mem_cons.2 ⟨hv, ih hrest (List.forall_mem_cons.2 ⟨hv, hdone⟩)⟩

theorem least_of_propagate (hp : p.Lawful) (hr : p.propagate g = .ok r)
    (hmeets : ∀ e ∈ g.edges, g.isFirstParty e.child.key = false →
      ∀ c ∈ p.owed g e.parent e.child e.kind (R e.parent.key), c ∈ R e.child.key) :
    ∀ k ∈ g.members.map Member.key, ∀ c ∈ r.of k, c ∈ R k := by
  obtain ⟨horder, hprogress⟩ := progress_of_propagate hp hr
  have hall := DependencyGraph.mem_of_topological horder
  intro k hk
  obtain ⟨v, hv, rfl⟩ := List.mem_map.1 (hall k hk)
  refine hprogress.of_least hp hall ?_ hmeets (fun _ h => absurd h List.not_mem_nil) v hv
  rw [(DependencyGraph.topological_eq_ok horder).1]
  exact g.dependentsFirst_order

/-- Where one propagator lets third-party packages transmit nothing beyond what another
requires, it requires nothing more on the whole. -/
theorem of_subset_of_owed (hp : p.Lawful) (hq : q.Lawful) (hpolicies : q.policies = p.policies)
    (hr : p.propagate g = .ok r) (hs : q.propagate g = .ok s)
    (howed : ∀ e ∈ g.edges, g.isFirstParty e.parent.key = false →
      g.isFirstParty e.child.key = false →
        ∀ c ∈ q.owed g e.parent e.child e.kind (r.of e.parent.key), c ∈ r.of e.child.key) :
    ∀ k ∈ g.members.map Member.key, ∀ c ∈ s.of k, c ∈ r.of k := by
  have hmeets : ∀ e ∈ g.edges, g.isFirstParty e.child.key = false →
      ∀ c ∈ q.owed g e.parent e.child e.kind (r.of e.parent.key), c ∈ r.of e.child.key := by
    intro e he hthird c hc
    cases hfirst : g.isFirstParty e.parent.key with
    | false => exact howed e he hfirst hthird c hc
    | true =>
      refine required_of_owed hp hr he hthird ?_
      rw [owed, if_pos hfirst] at hc ⊢
      rwa [← hpolicies]
  exact least_of_propagate hq hs hmeets

theorem of_thirdParty_subset_of_owed (hp : p.Lawful) (hq : q.Lawful)
    (hpolicies : q.policies = p.policies) (hr : p.propagate g = .ok r) (hs : q.propagate g = .ok s)
    (howed : ∀ e ∈ g.edges, g.isFirstParty e.parent.key = false →
      g.isFirstParty e.child.key = false →
        ∀ c ∈ q.owed g e.parent e.child e.kind (r.of e.parent.key), c ∈ r.of e.child.key) :
    ∀ id ∈ g.thirdParty, ∀ c ∈ s.of id.key, c ∈ r.of id.key := by
  intro id hid
  have hkey := DependencyGraph.mem_thirdParty_key.1 (List.mem_map_of_mem hid)
  exact of_subset_of_owed hp hq hpolicies hr hs howed id.key hkey.1

end Propagator

namespace AuditStore

variable {model : CriteriaModel} {store : AuditStore model} {m n : ExemptionMode}
  {g : DependencyGraph} {policies : PolicyTable} {before after : Requirements} {report : Report} {id : PackageId}
  {c : String}

theorem satisfied_of_stricterThan [SetOrder] (h : m.StricterThan n)
    (hc : c ∈ store.satisfied m id) : c ∈ store.satisfied n id := by
  obtain ⟨hmem, hundenied, chain, hchain⟩ := mem_satisfied_iff_chain.1 hc
  refine mem_satisfied_iff_chain.2 ⟨hmem, hundenied, chain, hchain.imp fun r counts => ?_⟩
  exact ⟨counts.accepted, counts.filed, ExemptionMode.admits_of_stricterThan h counts.admitted,
    counts.implies⟩

theorem override?_eq_none [SetOrder] {mode : ExemptionMode} {dependency : String}
    (h : ∀ r ∈ store.accepted, r.package = id.package →
      r.dependencyCriteria.get? dependency = none) (criterion : String) :
    (store.propagator mode policies).override? id criterion dependency = none := by
  have hnone : (store.resolve mode id criterion).path.filterMap
      (fun r => r.dependencyCriteria.get? dependency) = [] := by
    rw [List.filterMap_eq_nil_iff]
    intro r hr
    have hcounts := counts_of_mem_path hr
    exact h r hcounts.accepted hcounts.filed
  change Propagator.asked? (store.resolve mode id criterion).path dependency = none
  rw [Propagator.asked?, hnone]

/-- Where no records ask anything of a dependency, all stores and modes transmit the same to it. -/
theorem owed_eq_of_unnamed [SetOrder] {store' : AuditStore model} {e : Dependency}
    {required : NameSet} (h : ∀ r ∈ store.accepted, r.package = e.parent.package →
      r.dependencyCriteria.get? e.child.package = none)
    (h' : ∀ r ∈ store'.accepted, r.package = e.parent.package →
      r.dependencyCriteria.get? e.child.package = none) :
    (store'.propagator n policies).owed g e.parent e.child e.kind required =
      (store.propagator m policies).owed g e.parent e.child e.kind required := by
  have hm : ∀ c, (store.propagator m policies).override? e.parent c e.child.package = none :=
    override?_eq_none h
  have hn : ∀ c, (store'.propagator n policies).override? e.parent c e.child.package = none :=
    override?_eq_none h'
  exact Propagator.owed_congr_override rfl rfl fun _ c _ => (hn c).trans (hm c).symm

/-- Where all that was required before is satisfied, a vet passes as far as what is new is. -/
theorem success_iff_of_satisfied [SetOrder] (hconflicts : store.conflictsIn g.packages = [])
    (hbefore : ∀ id ∈ g.thirdParty, ∀ c ∈ before.of id.key, c ∈ store.satisfied n id) :
    (store.report n g after).conclusion = .success ↔ ∀ id ∈ g.thirdParty,
      ∀ c ∈ after.of id.key, c ∉ before.of id.key → c ∈ store.satisfied n id := by
  rw [conclusion_report_eq_success_iff, and_iff_right hconflicts]
  constructor
  · exact fun hall id hid c hc _ => hall id hid c hc
  · intro hnew id hid c hc
    by_cases hold : c ∈ before.of id.key
    · exact hbefore id hid c hold
    · exact hnew id hid c hc hold

/-- What a vet that passes under one mode says about another: the requirements under both, and
when it passes under the other too. -/
structure Carries [SetOrder] (store : AuditStore model) (m n : ExemptionMode) (g : DependencyGraph)
    (policies : PolicyTable) (before after : Requirements) : Prop where
  before_eq : (store.propagator m policies).propagate g = .ok before
  after_eq : (store.propagator n policies).propagate g = .ok after
  vet_eq : (store.vetLogged n g policies).outcome = .ok (store.report n g after)
  satisfied : ∀ id c, c ∈ store.satisfied m id → c ∈ store.satisfied n id
  success_iff : (store.report n g after).conclusion = .success ↔
    ∀ id ∈ g.thirdParty, ∀ c ∈ after.of id.key, c ∉ before.of id.key → c ∈ store.satisfied n id
  success_of_owed : (∀ e ∈ g.edges, g.isFirstParty e.parent.key = false →
    g.isFirstParty e.child.key = false →
      ∀ c ∈ (store.propagator n policies).owed g e.parent e.child e.kind (before.of e.parent.key),
        c ∈ before.of e.child.key) → (store.report n g after).conclusion = .success
  success_of_unnamed : (∀ e ∈ g.edges, g.isFirstParty e.parent.key = false →
    g.isFirstParty e.child.key = false → ∀ r ∈ store.accepted, r.package = e.parent.package →
      r.dependencyCriteria.get? e.child.package = none) →
        (store.report n g after).conclusion = .success

theorem success_iff_of_stricterThan [SetOrder] (hmode : m.StricterThan n)
    (hpass : (store.report m g before).conclusion = .success) :
    (store.report n g after).conclusion = .success ↔ ∀ id ∈ g.thirdParty,
      ∀ c ∈ after.of id.key, c ∉ before.of id.key → c ∈ store.satisfied n id := by
  obtain ⟨hconflicts, hsatisfied⟩ := conclusion_report_eq_success_iff.1 hpass
  exact success_iff_of_satisfied hconflicts fun id hid c hc =>
    satisfied_of_stricterThan hmode (hsatisfied id hid c hc)

/-- A vet that passes under a stricter mode fails under a more lenient one only for criteria that
are required there alone, and which records ask of dependencies. -/
theorem carries_of_stricterThan [SetOrder] (hmode : m.StricterThan n)
    (h : (store.vetLogged m g policies).outcome = .ok report)
    (hpass : report.conclusion = .success) :
    ∃ before after, store.Carries m n g policies before after := by
  rw [outcome_vetLogged] at h
  obtain ⟨hcheck, before, hbefore, rfl⟩ := vet_eq_ok h
  have hp : (store.propagator m policies).Lawful := lawful_propagator hcheck
  have hq : (store.propagator n policies).Lawful := lawful_propagator hcheck
  obtain ⟨horder, hprogress⟩ := Propagator.progress_of_propagate hp hbefore
  obtain ⟨after, hafter, _⟩ := Propagator.propagate_of_topological hq horder
  have hall := DependencyGraph.mem_of_topological horder
  have hsuccess : (store.report n g after).conclusion = .success ↔ ∀ id ∈ g.thirdParty,
      ∀ c ∈ after.of id.key, c ∉ before.of id.key → c ∈ store.satisfied n id :=
    success_iff_of_stricterThan hmode hpass
  have howed : (∀ e ∈ g.edges, g.isFirstParty e.parent.key = false →
      g.isFirstParty e.child.key = false →
        ∀ c ∈ (store.propagator n policies).owed g e.parent e.child e.kind
          (before.of e.parent.key), c ∈ before.of e.child.key) →
            (store.report n g after).conclusion = .success := by
    intro howed
    refine hsuccess.2 fun id hid c hc hnew => absurd ?_ hnew
    exact Propagator.of_thirdParty_subset_of_owed hp hq rfl hbefore hafter howed id hid c hc
  refine ⟨before, after, hbefore, hafter, ?_, fun _ _ => satisfied_of_stricterThan hmode,
    hsuccess, howed, fun hunnamed => howed fun e he hparent hchild c hc => ?_⟩
  · rw [outcome_vetLogged]
    exact vet_of_propagate hcheck hafter
  · have hnone := hunnamed e he hparent hchild
    rw [owed_eq_of_unnamed hnone hnone] at hc
    exact (hprogress.mem_of hp hall hchild).2 ⟨e, DependencyGraph.mem_dependents.2 ⟨he, rfl⟩, hc⟩

theorem carries_of_stricterThan_workbench :
    ExemptionMode.deny.StricterThan .allow ∧
      (∃ report, (workbenchReviews.vetLogged .deny workbench {}).outcome = .ok report ∧
        report.conclusion = .success) ∧
      ∃ before after, workbenchReviews.Carries .deny .allow workbench {} before after := by
  have hmode : ExemptionMode.deny.StricterThan .allow := by decide
  obtain ⟨report, hvet, hpass⟩ : ∃ report,
      (workbenchReviews.vetLogged .deny workbench {}).outcome = .ok report ∧
        report.conclusion = .success := exists_report_of_conclusion (by decide +kernel)
  exact ⟨hmode, ⟨report, hvet, hpass⟩, carries_of_stricterThan hmode hvet hpass⟩

/-- The middle package was reviewed before it changed, and the change on the premise that its base
is only run. Without that premise it is exempted. -/
def workbenchExemption : AuditStore .builtin :=
  let first : Version := { major := 0, minor := 9, patch := 0 }
  let second : Version := { major := 1, minor := 0, patch := 0 }
  .ofRecords .builtin [
    .full { package := "middle", version := first, criteria := .single safeToDeploy },
    .delta { package := "middle", start := first, target := second, criteria := .single safeToDeploy
             dependencyCriteria := .ofList [("base", .single safeToRun)] },
    .exemption { package := "middle", version := second, criteria := .single safeToDeploy },
    .full { package := "base", version := second, criteria := .single safeToRun }]

/-- An exemption can turn a vet that passes into one that fails: the shorter path that it opens
drops what the records of the longer one ask of a dependency. -/
theorem exists_passing_vet_that_fails_when_lenient :
    ¬∀ (model : CriteriaModel) (store : AuditStore model) (g : DependencyGraph)
      (policies : PolicyTable) (m n : ExemptionMode), m.StricterThan n →
        (∃ report, (store.vetLogged m g policies).outcome = .ok report ∧
          report.conclusion = .success) →
        ∃ report, (store.vetLogged n g policies).outcome = .ok report ∧
          report.conclusion = .success := by
  intro hclaim
  -- The exemption is found before the change is, and with it the base has to be safe to deploy.
  have hstrict : (workbenchExemption.vetLogged .deny workbench {}).outcome.toOption.map
      Report.conclusion = some .success := by decide +kernel
  have hlenient : (workbenchExemption.vetLogged .allow workbench {}).outcome.toOption.map
      Report.conclusion = some .failVetting := by decide +kernel
  obtain ⟨report, hreport, hpass⟩ := hclaim .builtin workbenchExemption workbench {} .deny .allow
    (by decide) (exists_report_of_conclusion hstrict)
  rw [hreport] at hlenient
  have hfail : report.conclusion = .failVetting := Option.some.inj hlenient
  rw [hpass] at hfail
  cases hfail

end AuditStore

end Vetting
