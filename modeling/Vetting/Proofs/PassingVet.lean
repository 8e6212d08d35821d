import Vetting.Proofs.Equations

/-! A vet that passes is sound from end to end: whatever is demanded along a way through the
graph from a first-party package, records vouch for, and no violation denies it. -/

namespace Vetting

theorem Logged.outcome_bind {α β : Type} (x : Logged α) (f : α → Logged β) :
    (x >>= f).outcome = x.outcome >>= fun a => (f a).outcome := by
  obtain ⟨outcome, _⟩ := x
  cases outcome with
  | ok a => rfl
  | error e => rfl

namespace DependencyGraph

variable {g : DependencyGraph} {k : PackageKey} {m : Member}

theorem find?_of_mem (h : m ∈ g.members) : g.find? m.key = some m.node := by
  have hnodup := g.keys_nodup
  rw [find?]
  generalize g.members = members at h hnodup
  induction members with
  | nil => cases h
  | cons n ns ih =>
    rw [List.map_cons, List.nodup_cons] at hnodup
    rcases List.mem_cons.1 h with rfl | h
    · simp
    · have hne : n.key ≠ m.key := fun heq => hnodup.1 (heq ▸ List.mem_map_of_mem h)
      rw [List.find?_cons_of_neg (by simpa using hne)]
      exact ih h hnodup.2

theorem mem_thirdParty_key : k ∈ g.thirdParty.map PackageId.key ↔
    k ∈ g.members.map Member.key ∧ g.isFirstParty k = false := by
  simp only [thirdParty, nodes, sorted, List.mem_map, List.mem_filter, mem_sortBy]
  constructor
  · intro hx
    obtain ⟨_, ⟨_, ⟨⟨m, hm, rfl⟩, hthird⟩, rfl⟩, rfl⟩ := hx
    refine ⟨⟨m, hm, (g.node_key m hm).symm⟩, ?_⟩
    rw [g.node_key m hm, isFirstParty, find?_of_mem hm]
    simpa using hthird
  · intro hx
    obtain ⟨⟨m, hm, rfl⟩, hthird⟩ := hx
    rw [isFirstParty, find?_of_mem hm] at hthird
    exact ⟨m.node.id, ⟨m.node, ⟨⟨m, hm, rfl⟩, by simpa using hthird⟩, rfl⟩, g.node_key m hm⟩

end DependencyGraph

namespace Verdict

theorem passed_judge_iff [SetOrder] {model : CriteriaModel} {store : AuditStore model}
    {mode : ExemptionMode} {id : PackageId} {required : NameSet} :
    (store.judge mode id required).passed = true ↔ ∀ c ∈ required, c ∈ store.satisfied mode id := by
  have hunmet : (store.judge mode id required).unmet.isEmpty = true ↔
      ∀ c ∈ required, c ∈ store.satisfied mode id := by
    rw [NameSet.isEmpty_iff]
    simp only [mem_unmet, not_and, not_not]
    rfl
  rw [passed, Bool.and_eq_true, hunmet, and_iff_left_iff_imp]
  intro h
  have hnone : required \ store.satisfied mode id = ∅ := by
    ext c
    simpa using h c
  simp only [violations, AuditStore.judge, hnone]
  rfl

end Verdict

namespace AuditStore

variable {model : CriteriaModel} {store : AuditStore model} {mode : ExemptionMode}
  {g : DependencyGraph} {policies : PolicyTable} {requirements : Requirements} {report : Report}

/-- A vet passes where the store has no conflicts and satisfies all that is required. -/
theorem conclusion_report_eq_success_iff [SetOrder] :
    (store.report mode g requirements).conclusion = .success ↔
      store.conflictsIn g.packages = [] ∧
        ∀ id ∈ g.thirdParty, ∀ c ∈ requirements.of id.key, c ∈ store.satisfied mode id := by
  have hfailing : (store.report mode g requirements).failing = [] ↔
      ∀ id ∈ g.thirdParty, ∀ c ∈ requirements.of id.key, c ∈ store.satisfied mode id := by
    simp only [Report.failing, AuditStore.report, List.filter_eq_nil_iff, List.forall_mem_map,
      Bool.not_eq_true', Bool.not_eq_false, Verdict.passed_judge_iff]
  have hconflicts : (store.report mode g requirements).conflicts = store.conflictsIn g.packages :=
    rfl
  rw [← hfailing, Report.conclusion, hconflicts]
  constructor
  · intro h
    split at h
    · cases h
    · next hfine =>
      split at h
      · next hempty =>
        refine ⟨?_, List.isEmpty_iff.1 hempty⟩
        simp only [Bool.or_eq_true, not_or] at hfine
        simpa using hfine.1
      · cases h
  · intro hx
    obtain ⟨hnone, hempty⟩ := hx
    rw [hnone, hempty]
    rfl

theorem outcome_vetLogged [SetOrder] :
    (store.vetLogged mode g policies).outcome = store.vet mode g policies := by
  rw [vetLogged, Logged.outcome_bind, vet]
  congr 1
  · rw [PolicyTable.validate, Logged.outcome_bind]
    cases policies.check model with
    | ok => rfl
    | error => rfl
  · funext _
    rw [Logged.outcome_bind]
    rfl

theorem vet_eq_ok [SetOrder] (h : store.vet mode g policies = .ok report) :
    policies.check model = .ok () ∧ ∃ requirements,
      (store.propagator mode policies).propagate g = .ok requirements ∧
        report = store.report mode g requirements := by
  obtain ⟨_, hcheck, hrest⟩ := bind_eq_ok h
  obtain ⟨requirements, hrequirements, hpure⟩ := bind_eq_ok hrest
  cases hpure
  refine ⟨?_, requirements, hrequirements, rfl⟩
  cases hpolicies : policies.check model with
  | ok => rfl
  | error fault =>
    rw [hpolicies] at hcheck
    cases hcheck

theorem lawful_propagator [SetOrder] (hcheck : policies.check model = .ok ()) :
    (store.propagator mode policies).Lawful :=
  Propagator.lawful_through hcheck (some (store, mode))

theorem vet_of_propagate [SetOrder] (hcheck : policies.check model = .ok ())
    (h : (store.propagator mode policies).propagate g = .ok requirements) :
    store.vet mode g policies = .ok (store.report mode g requirements) := by
  rw [vet, hcheck, h]
  rfl

end AuditStore

/-- A path along the edges of a graph to a package: it starts at a first-party package and goes
through others only. -/
inductive DependencyPath (g : DependencyGraph) : List Dependency → PackageKey → Prop
  | start {e : Dependency} (edge : e ∈ g.edges) (first : g.isFirstParty e.parent.key = true)
      (third : g.isFirstParty e.child.key = false) : DependencyPath g [e] e.child.key
  | onward {path : List Dependency} {e : Dependency} (before : DependencyPath g path e.parent.key)
      (edge : e ∈ g.edges) (third : g.isFirstParty e.child.key = false) :
      DependencyPath g (path ++ [e]) e.child.key

/-- What is demanded at the end of a path: the policy on its first edge says what of the first
package, and every further edge transmits what is demanded of its parent. -/
def Propagator.demanded (p : Propagator) (g : DependencyGraph) :
    List Dependency → Except CriteriaFault NameSet
  | [] => .ok ∅
  | e :: es =>
    es.foldlM (fun required e => p.transmitted g e.parent e.child e.kind required)
      (p.policies.requiredOf e.parent.package e.child.package e.kind)

namespace DependencyPath

variable {p : Propagator} {g : DependencyGraph} {path : List Dependency} {k : PackageKey}

theorem mem_keys (h : DependencyPath g path k) : k ∈ g.members.map Member.key := by
  cases h with
  | start edge => exact (g.edges_closed _ edge).2
  | onward _ edge => exact (g.edges_closed _ edge).2

theorem thirdParty (h : DependencyPath g path k) : g.isFirstParty k = false := by
  cases h with
  | start _ _ third => exact third
  | onward _ _ third => exact third

theorem ne_nil (h : DependencyPath g path k) : path ≠ [] := by
  cases h with
  | start => simp
  | onward => simp

theorem demanded_onward (h : DependencyPath g path k) (e : Dependency) :
    p.demanded g (path ++ [e]) =
      p.demanded g path >>= p.transmitted g e.parent e.child e.kind := by
  have hne := h.ne_nil
  cases path with
  | nil => exact absurd rfl hne
  | cons d ds =>
    rw [List.cons_append, Propagator.demanded, Propagator.demanded, List.foldlM_append]
    simp only [List.foldlM_cons, List.foldlM_nil, bind_pure]

/-- Nothing is demanded along a path that is not required where it ends. -/
theorem demanded_required (hp : p.Lawful) {r : Requirements} (hr : p.propagate g = .ok r)
    (h : DependencyPath g path k) :
    ∃ required, p.demanded g path = .ok required ∧ ∀ c ∈ required, c ∈ r.of k := by
  have hprogress := (Propagator.progress_of_propagate hp hr).2
  -- What is demanded stays within what is required, and what is owed grows with what is required.
  induction h with
  | @start e edge first third =>
    refine ⟨p.policies.requiredOf e.parent.package e.child.package e.kind, rfl, fun c hc => ?_⟩
    refine Propagator.required_of_owed hp hr edge third ?_
    rwa [Propagator.owed, if_pos first]
  | @onward path e before edge third ih =>
    obtain ⟨required, hrequired, hsub⟩ := ih
    have hknown : ∀ c ∈ required, c ∈ p.model :=
      fun c hc => hprogress.known_sumFor c (hsub c hc)
    refine ⟨p.owed g e.parent e.child e.kind required, ?_, fun c hc => ?_⟩
    · rw [before.demanded_onward, hrequired]
      exact Propagator.transmitted_of_known hknown
    · exact Propagator.required_of_owed hp hr edge third (Propagator.owed_mono hsub hc)

end DependencyPath

namespace AuditStore

variable {model : CriteriaModel} {store : AuditStore model} {mode : ExemptionMode}
  {g : DependencyGraph} {policies : PolicyTable} {report : Report} {path : List Dependency}
  {k : PackageKey}

theorem exists_report_of_any [SetOrder] {p : Report → Bool}
    (h : (store.vetLogged mode g policies).outcome.toOption.any p = true) :
    ∃ report, (store.vetLogged mode g policies).outcome = .ok report ∧ p report = true :=
  exists_ok_of_any h

theorem exists_report_of_conclusion [SetOrder] {conclusion : Conclusion}
    (h : (store.vetLogged mode g policies).outcome.toOption.map Report.conclusion =
      some conclusion) :
    ∃ report, (store.vetLogged mode g policies).outcome = .ok report ∧
      report.conclusion = conclusion := by
  cases hvet : (store.vetLogged mode g policies).outcome with
  | error fault =>
    rw [hvet] at h
    cases h
  | ok report =>
    rw [hvet] at h
    exact ⟨report, rfl, Option.some.inj h⟩

/-- Where a vet passes, a chain of records vouches for every criterion that is demanded along a
path, and no violation denies any of them. -/
theorem vet_sound [SetOrder] (h : (store.vetLogged mode g policies).outcome = .ok report)
    (hpass : report.conclusion = .success) (hpath : DependencyPath g path k) :
    ∃ required, (store.propagator mode policies).demanded g path = .ok required ∧
      ∀ c ∈ required, (∃ chain, store.Chain mode k.package c chain k.release) ∧
        ∀ r ∈ store.accepted, r.denies model k.package k.release c = false := by
  rw [outcome_vetLogged] at h
  obtain ⟨hcheck, requirements, hrequirements, rfl⟩ := vet_eq_ok h
  obtain ⟨required, hrequired, hsub⟩ :=
    hpath.demanded_required (lawful_propagator hcheck) hrequirements
  refine ⟨required, hrequired, fun c hc => ?_⟩
  obtain ⟨id, hid, rfl⟩ := List.mem_map.1
    (DependencyGraph.mem_thirdParty_key.2 ⟨hpath.mem_keys, hpath.thirdParty⟩)
  have hsatisfied := (conclusion_report_eq_success_iff.1 hpass).2 id hid c (hsub c hc)
  obtain ⟨_, hundenied, hchain⟩ := mem_satisfied_iff_chain.1 hsatisfied
  exact ⟨hchain, hundenied⟩

theorem vet_sound_workbench :
    ∃ report, (workbenchReviews.vetLogged .deny workbench {}).outcome = .ok report ∧
      report.conclusion = .success ∧
        ∃ path k, DependencyPath workbench path k ∧ path.length = 2 ∧
          ∃ required, (workbenchReviews.propagator .deny {}).demanded workbench path =
              .ok required ∧
            ∀ c ∈ required, (∃ chain, workbenchReviews.Chain .deny k.package c chain k.release) ∧
              ∀ r ∈ workbenchReviews.accepted, r.denies .builtin k.package k.release c = false := by
  let id : String → PackageId := fun name => ⟨name, { major := 1, minor := 0, patch := 0 }⟩
  obtain ⟨report, hvet, hpass⟩ : ∃ report,
      (workbenchReviews.vetLogged .deny workbench {}).outcome = .ok report ∧
        report.conclusion = .success := exists_report_of_conclusion (by decide +kernel)
  have hpath : DependencyPath workbench
      ([⟨id "app", id "middle", .normal⟩] ++ [⟨id "middle", id "base", .normal⟩])
      (id "base").key :=
    .onward (.start (by decide +kernel) (by decide +kernel) (by decide +kernel))
      (by decide +kernel) (by decide +kernel)
  exact ⟨report, hvet, hpass, _, _, hpath, rfl, vet_sound hvet hpass hpath⟩

end AuditStore

end Vetting
