import Vetting.Proofs.CheckedVet

/-! When a vet fails: where its policies name an unknown criterion, or else where the graph goes
round in a circle. A vet that finds packages wanting does not fail. -/

namespace Vetting

namespace PolicyTable

variable {t : PolicyTable} {m : CriteriaModel} {fault : CriteriaFault}

/-- Whether a name is the default or stands in one of the policies, used or not. -/
def Names (t : PolicyTable) (c : String) : Prop :=
  c = t.default ∨ ∃ e ∈ t.policies.entries, c ∈ e.2.named

theorem check_eq_ok_iff_names : t.check m = .ok () ↔ ∀ c, t.Names c → c ∈ m := by
  rw [check_eq_ok_iff]
  constructor
  · rintro ⟨hdefault, hentries⟩ c (rfl | ⟨e, he, hc⟩)
    · exact hdefault
    · exact hentries e he c hc
  · intro hknown
    exact ⟨hknown _ (.inl rfl), fun e he c hc => hknown c (.inr ⟨e, he, hc⟩)⟩

theorem check_eq_error (h : t.check m = .error fault) :
    ∃ c context, t.Names c ∧ c ∉ m ∧ fault = m.unknownFault c context := by
  unfold check at h
  cases hdefault : m.check t.default "default-criteria" with
  | error first =>
    rw [hdefault] at h
    obtain ⟨hunknown, hfault⟩ := CriteriaModel.check_eq_error hdefault
    cases h
    exact ⟨_, _, .inl rfl, hunknown, hfault⟩
  | ok =>
    rw [hdefault] at h
    obtain ⟨e, he, hentry⟩ := exists_of_forM_eq_error h
    obtain ⟨c, hc, hcheck⟩ := exists_of_forM_eq_error hentry
    obtain ⟨hunknown, hfault⟩ := CriteriaModel.check_eq_error hcheck
    exact ⟨c, _, .inr ⟨e, he, hc⟩, hunknown, hfault⟩

end PolicyTable

namespace AuditStore

variable {model : CriteriaModel} {store : AuditStore model} {mode : ExemptionMode}
  {g : DependencyGraph} {policies : PolicyTable}

theorem vet_of_unknown [SetOrder] (h : ¬∀ c, policies.Names c → c ∈ model) :
    ∃ c context, policies.Names c ∧
    store.vet mode g policies = .error (.criteria (model.unknownFault c context)) := by
  rw [← PolicyTable.check_eq_ok_iff_names] at h
  cases hcheck : policies.check model with
  | ok => exact absurd hcheck h
  | error fault =>
    obtain ⟨c, context, hc, _, rfl⟩ := PolicyTable.check_eq_error hcheck
    refine ⟨c, context, hc, ?_⟩
    rw [vet, hcheck]
    rfl

theorem vet_of_cycle [SetOrder] (hcheck : policies.check model = .ok ()) (hg : ¬g.Acyclic) :
    ∃ ids, store.vet mode g policies = .error (.dependencyCycle ids) := by
  have hshort : g.order.length ≠ g.members.length :=
    fun hlength => hg (DependencyGraph.acyclic_iff.2 (if_pos hlength))
  have horder : g.topological = .error (.dependencyCycle (g.cycles.headD [])) := if_neg hshort
  refine ⟨g.cycles.headD [], ?_⟩
  rw [vet, hcheck, Propagator.propagate, horder]
  rfl

theorem exists_vet_of_acyclic [SetOrder] (hcheck : policies.check model = .ok ()) (hg : g.Acyclic) :
    ∃ report, store.vet mode g policies = .ok report := by
  obtain ⟨requirements, hrequirements⟩ := Propagator.exists_propagate (lawful_propagator hcheck) hg
  exact ⟨_, vet_of_propagate hcheck hrequirements⟩

theorem vet_eq_unknown_iff [SetOrder] : (∃ name valid context,
    store.vet mode g policies = .error (.criteria (.unknown name valid context))) ↔
      ¬∀ c, policies.Names c → c ∈ model := by
  constructor
  · rintro ⟨name, valid, context, hvet⟩ hknown
    have hcheck := PolicyTable.check_eq_ok_iff_names.2 hknown
    by_cases hg : g.Acyclic
    · obtain ⟨report, hreport⟩ := exists_vet_of_acyclic hcheck hg
      cases hvet.symm.trans hreport
    · obtain ⟨ids, hcycle⟩ := vet_of_cycle hcheck hg
      cases hvet.symm.trans hcycle
  · intro hunknown
    obtain ⟨c, context, _, hvet⟩ := vet_of_unknown hunknown
    exact ⟨c, model.names, context, hvet⟩

theorem vet_eq_cycle_iff [SetOrder] :
    (∃ ids, store.vet mode g policies = .error (.dependencyCycle ids)) ↔
    (∀ c, policies.Names c → c ∈ model) ∧ ¬g.Acyclic := by
  constructor
  · rintro ⟨ids, hvet⟩
    have hknown : ∀ c, policies.Names c → c ∈ model := by
      by_contra hunknown
      obtain ⟨c, context, _, hfault⟩ := vet_of_unknown hunknown
      cases hvet.symm.trans hfault
    refine ⟨hknown, fun hg => ?_⟩
    obtain ⟨report, hreport⟩ :=
      exists_vet_of_acyclic (PolicyTable.check_eq_ok_iff_names.2 hknown) hg
    cases hvet.symm.trans hreport
  · rintro ⟨hknown, hg⟩
    exact vet_of_cycle (PolicyTable.check_eq_ok_iff_names.2 hknown) hg

theorem exists_vet_iff [SetOrder] : (∃ report, store.vet mode g policies = .ok report) ↔
    (∀ c, policies.Names c → c ∈ model) ∧ g.Acyclic := by
  constructor
  · rintro ⟨report, hvet⟩
    obtain ⟨hcheck, _⟩ := vet_eq_ok hvet
    refine ⟨PolicyTable.check_eq_ok_iff_names.1 hcheck, ?_⟩
    by_contra hg
    obtain ⟨ids, hcycle⟩ := vet_of_cycle hcheck hg
    cases hvet.symm.trans hcycle
  · rintro ⟨hknown, hg⟩
    exact exists_vet_of_acyclic (PolicyTable.check_eq_ok_iff_names.2 hknown) hg

/-- A vet fails where its policies name an unknown criterion, or else where the graph goes round in
a circle, and answers with a report everywhere else: no other look-up that it makes can fail. -/
theorem vet_fails_on_configuration [SetOrder] (store : AuditStore model) (mode : ExemptionMode)
    (g : DependencyGraph) (policies : PolicyTable) :
    store.vetChecked mode policies g = (store.vetLogged mode g policies).outcome ∧
      ((∃ name valid context, (store.vetLogged mode g policies).outcome =
          .error (.criteria (.unknown name valid context))) ↔
        ∃ c, policies.Names c ∧ c ∉ model) ∧
      ((∃ ids, (store.vetLogged mode g policies).outcome = .error (.dependencyCycle ids)) ↔
        (∀ c, policies.Names c → c ∈ model) ∧
          ∃ k, Relation.TransGen (DependencyGraph.Joins g.edges) k k) ∧
      ((∃ report, (store.vetLogged mode g policies).outcome = .ok report) ↔
        (∀ c, policies.Names c → c ∈ model) ∧
          ¬∃ k, Relation.TransGen (DependencyGraph.Joins g.edges) k k) := by
  have hunknown : (∃ c, policies.Names c ∧ c ∉ model) ↔ ¬∀ c, policies.Names c → c ∈ model := by
    push Not
    exact Iff.rfl
  have hcycle : (∃ k, Relation.TransGen (DependencyGraph.Joins g.edges) k k) ↔ ¬g.Acyclic := by
    rw [DependencyGraph.Acyclic, DependencyGraph.NoCircle, not_forall_not]
  rw [outcome_vetLogged, vetChecked_eq, hunknown, hcycle, not_not]
  exact ⟨rfl, vet_eq_unknown_iff, vet_eq_cycle_iff, exists_vet_iff⟩

end AuditStore

end Vetting
