import Vetting.Proofs.CoherentReport
import Vetting.Proofs.GrowingRequirements
import Vetting.Proofs.SharedSessions
import Vetting.Proofs.SuggestedVet

/-! What a package depends on has no say in what is found of it. The verdicts on packages are those
of any other graph and store where the packages that depend on them and their records are the
same. -/

namespace Vetting

/-- Whether some packages of a graph, with all that depend on them, are in another one as well, and
what they depend on among themselves is the same there. -/
structure DependencyGraph.Lends (g g' : DependencyGraph) (A : PackageKey → Prop) : Prop where
  closed : ∀ e ∈ g.edges, A e.child.key → A e.parent.key
  members : ∀ k ∈ g.members.map Member.key, A k → k ∈ g'.members.map Member.key
  firstParty : ∀ k ∈ g.members.map Member.key, A k → g'.isFirstParty k = g.isFirstParty k
  edges : ∀ e ∈ g.edges, A e.child.key → ∃ e' ∈ g'.edges, e.agrees e' = true

namespace Propagator

variable {p q : Propagator} {g g' : DependencyGraph} {A : PackageKey → Prop} {e e' : Dependency}
  {r s : Requirements} {required : NameSet}

/-- Two propagators with the same policies owe the same over edges that join the same packages in
the same way, as long as records ask the same there. -/
theorem owed_eq_of_agrees (hp : p.Lawful) (hmodel : q.model = p.model)
    (hpolicies : q.policies = p.policies) (hagrees : e.agrees e' = true)
    (hfirst : g'.isFirstParty e.parent.key = g.isFirstParty e.parent.key)
    (hoverride : g.isFirstParty e.parent.key = false → ∀ c,
      q.override? e'.parent c e.child.package = p.override? e'.parent c e.child.package) :
    q.owed g' e'.parent e'.child e'.kind required = p.owed g e.parent e.child e.kind required := by
  obtain ⟨hparent, hchild, hkind⟩ := DependencyGraph.agrees_iff.1 hagrees
  have hpackage : e.parent.package = e'.parent.package := congrArg PackageKey.package hparent
  have hdependency : e.child.package = e'.child.package := congrArg PackageKey.package hchild
  rw [owed_congr_key hp hparent, owed, owed, ← hparent, hfirst, ← hdependency, ← hkind, hpolicies,
    ← hpackage]
  split
  · rfl
  · next hthird =>
    have hsame := hoverride (Bool.eq_false_iff.2 hthird)
    simp only [passedOn, hmodel, hsame]

/-- What is required of packages and of all that depend on them in one graph is required there in
another one that has these as the first does. -/
theorem required_subset_of_lends (hp : p.Lawful) (hq : q.Lawful) (hmodel : q.model = p.model)
    (hpolicies : q.policies = p.policies) (hlends : g.Lends g' A)
    (hoverride : ∀ id : PackageId, id.key ∈ g.members.map Member.key → A id.key →
      g.isFirstParty id.key = false → ∀ c d, q.override? id c d = p.override? id c d)
    (hr : p.propagate g = .ok r) (hs : q.propagate g' = .ok s) :
    ∀ k ∈ g.members.map Member.key, A k → ∀ c ∈ r.of k, c ∈ s.of k := by
  classical
  obtain ⟨_, hprogress⟩ := progress_of_propagate hq hs
  -- Elsewhere everything may be required: nothing leads back from there.
  let R : PackageKey → NameSet := fun k => if A k then s.of k else p.model.names
  have hknown : ∀ k, ∀ c ∈ R k, c ∈ p.model := by
    intro k c hc
    by_cases hk : A k
    · simp only [R, if_pos hk] at hc
      exact hmodel ▸ hprogress.known_sumFor c hc
    · simp only [R, if_neg hk] at hc
      exact hc
  have hmeets : ∀ e ∈ g.edges, g.isFirstParty e.child.key = false →
      ∀ c ∈ p.owed g e.parent e.child e.kind (R e.parent.key), c ∈ R e.child.key := by
    intro e he hthird c hc
    by_cases hchild : A e.child.key
    · obtain ⟨e', he', hagrees⟩ := hlends.edges e he hchild
      obtain ⟨hparentkey, hchildkey, _⟩ := DependencyGraph.agrees_iff.1 hagrees
      obtain ⟨hmember, hchildmember⟩ := g.edges_closed e he
      have hparent : A e.parent.key := hlends.closed e he hchild
      have hthird' : g'.isFirstParty e'.child.key = false := by
        rw [← hchildkey, hlends.firstParty _ hchildmember hchild]
        exact hthird
      simp only [R, if_pos hparent] at hc
      simp only [R, if_pos hchild]
      rw [← owed_eq_of_agrees hp hmodel hpolicies hagrees
        (hlends.firstParty _ hmember hparent) fun hfirst c =>
          hoverride e'.parent (hparentkey ▸ hmember) (hparentkey ▸ hparent) (hparentkey ▸ hfirst)
            c _] at hc
      rw [hparentkey] at hc
      rw [hchildkey]
      exact required_of_owed hq hs he' hthird' hc
    · simp only [R, if_neg hchild]
      exact known_of_mem_owed hp (hknown _) hc
  intro k hk hA c hc
  have hleast := least_of_propagate hp hr hmeets k hk c hc
  simpa only [R, if_pos hA] using hleast

/-- Packages that two graphs have with all that depend on them are required the same in both. -/
theorem required_eq_of_lends (hp : p.Lawful) (hq : q.Lawful) (hmodel : q.model = p.model)
    (hpolicies : q.policies = p.policies) (hlends : g.Lends g' A) (hback : g'.Lends g A)
    (hoverride : ∀ id : PackageId, id.key ∈ g.members.map Member.key → A id.key →
      g.isFirstParty id.key = false → ∀ c d, q.override? id c d = p.override? id c d)
    (hr : p.propagate g = .ok r) (hs : q.propagate g' = .ok s) :
    ∀ k ∈ g.members.map Member.key, A k → s.of k = r.of k := by
  intro k hk hA
  have hto := required_subset_of_lends hp hq hmodel hpolicies hlends hoverride hr hs k hk hA
  have hfrom := required_subset_of_lends hq hp hmodel.symm hpolicies.symm hback
    (fun id hid hAid hthird c d => (hoverride id (hback.members _ hid hAid) hAid
      ((hback.firstParty _ hid hAid).trans hthird) c d).symm) hs hr k (hlends.members k hk hA) hA
  exact NameSet.ext fun c => ⟨hfrom c, hto c⟩

end Propagator

/-- What holds of the packages that are vetted holds of all members that are not first party. -/
theorem DependencyGraph.of_forall_thirdParty {g : DependencyGraph} {P : PackageKey → Prop}
    (h : ∀ id ∈ g.thirdParty, P id.key) {k : PackageKey} (hk : k ∈ g.members.map Member.key)
    (hthird : g.isFirstParty k = false) : P k := by
  obtain ⟨id, hid, rfl⟩ := List.mem_map.1 (mem_thirdParty_key.2 ⟨hk, hthird⟩)
  exact h id hid

/-- Whether two verdicts find the same of a package, failures with their reasons included. -/
structure Verdict.Agrees (v w : Verdict) : Prop where
  key_eq : w.id.key = v.id.key
  required_eq : w.required = v.required
  satisfied_eq : w.satisfied = v.satisfied
  failures_eq : w.failures = v.failures
  status_eq : w.status = v.status

/-- Whether two reports judge some packages of a graph, and find the same of them. -/
def Report.AgreeOn (g : DependencyGraph) (A : PackageKey → Prop) (r s : Report) : Prop :=
  ∀ id ∈ g.thirdParty, A id.key → ∃ v w, r.find? id.key = some v ∧ s.find? id.key = some w ∧
    v.Agrees w

theorem DependencyGraph.Lends.self {g : DependencyGraph} {A : PackageKey → Prop}
    (h : ∀ e ∈ g.edges, A e.child.key → A e.parent.key) : g.Lends g A :=
  ⟨h, fun _ hk _ => hk, fun _ _ _ => rfl, fun e he _ => ⟨e, he, agrees_iff.2 ⟨rfl, rfl, rfl⟩⟩⟩

theorem Report.find?_of_mem {g : DependencyGraph} {r : Report} {f : PackageId → Verdict}
    {id : PackageId} (hr : r.verdicts = g.thirdParty.map f) (hf : ∀ id, (f id).id = id)
    (hid : id ∈ g.thirdParty) : r.find? id.key = some (f id) := by
  have hmem : f id ∈ r.verdicts := hr ▸ List.mem_map_of_mem hid
  have hsome : (r.find? id.key).isSome = true :=
    List.find?_isSome.2 ⟨f id, hmem, decide_eq_true (by rw [hf])⟩
  obtain ⟨v, hv⟩ := Option.isSome_iff_exists.1 hsome
  have hkey : v.id.key = id.key := by simpa using List.find?_some (p := fun v => _) hv
  obtain ⟨other, hother, rfl⟩ := List.mem_map.1 (hr ▸ List.mem_of_find?_eq_some hv)
  rw [hf] at hkey
  rw [hv, List.inj_on_of_nodup_map g.nodup_thirdParty hother hid hkey]

theorem Verdict.Agrees.trans {u v w : Verdict} (h : u.Agrees v) (h' : v.Agrees w) : u.Agrees w :=
  ⟨h'.key_eq.trans h.key_eq, h'.required_eq.trans h.required_eq,
    h'.satisfied_eq.trans h.satisfied_eq, h'.failures_eq.trans h.failures_eq,
    h'.status_eq.trans h.status_eq⟩

theorem DependencyGraph.Lends.mem_thirdParty {g g' : DependencyGraph} {A : PackageKey → Prop}
    (h : g.Lends g' A) {id : PackageId} (hid : id ∈ g.thirdParty) (hA : A id.key) :
    ∃ id' ∈ g'.thirdParty, id'.key = id.key := by
  obtain ⟨hmember, hthird⟩ := mem_thirdParty_key.1 (List.mem_map_of_mem hid)
  refine List.mem_map.1 (mem_thirdParty_key.2 ⟨h.members _ hmember hA, ?_⟩)
  exact (h.firstParty _ hmember hA).trans hthird

theorem Report.AgreeOn.trans {g g' : DependencyGraph} {A : PackageKey → Prop} {r s t : Report}
    (hrs : AgreeOn g A r s) (hst : AgreeOn g' A s t) (hlends : g.Lends g' A) : AgreeOn g A r t := by
  intro id hid hA
  obtain ⟨v, w, hv, hw, hvw⟩ := hrs id hid hA
  obtain ⟨id', hid', hkey⟩ := hlends.mem_thirdParty hid hA
  obtain ⟨w', x, hw', hx, hwx⟩ := hst id' hid' (hkey.symm ▸ hA)
  rw [hkey] at hw' hx
  obtain rfl : w = w' := Option.some.inj (hw.symm.trans hw')
  exact ⟨v, x, hv, hx, hvw.trans hwx⟩

namespace AuditStore

variable {model : CriteriaModel} {store store' : AuditStore model} {mode : ExemptionMode}
  {policies : PolicyTable} {g g' : DependencyGraph} {A : PackageKey → Prop} {past past' : Past}
  {report report' : Report} {id id' : PackageId} {required : NameSet}

theorem satisfied_congr_recordsFor [SetOrder]
    (h : store'.recordsFor id.package = store.recordsFor id.package) :
    store'.satisfied mode id = store.satisfied mode id := by
  ext c
  rw [mem_satisfied_iff_isSatisfied_resolve, mem_satisfied_iff_isSatisfied_resolve,
    resolve_congr_recordsFor h]

/-- Only records of the package itself have a say in its verdict, given what is required of it. -/
theorem agrees_judge [SetOrder] (hkey : id'.key = id.key)
    (h : store'.recordsFor id.package = store.recordsFor id.package) :
    (store.judge mode id required).Agrees (store'.judge mode id' required) := by
  have hresolve : ∀ c, store'.resolve mode id' c = store.resolve mode id c := fun c =>
    (resolve_congr_key hkey c).trans (resolve_congr_recordsFor h c)
  have hsatisfied : ∀ m, store'.satisfied m id' = store.satisfied m id := fun m =>
    (satisfied_congr_key hkey).trans (satisfied_congr_recordsFor h)
  have hexplain : store'.explain mode id' = store.explain mode id := by
    funext c
    rw [explain, explain, hresolve, hsatisfied]
  have hclassify : store'.classify mode id' required = store.classify mode id required := by
    simp only [classify, hresolve, hsatisfied]
  refine ⟨hkey, rfl, hsatisfied mode, ?_, ?_⟩
  · simp only [judge, hsatisfied, hexplain]
  · simp only [judge, hsatisfied, hexplain, hclassify]

theorem agreeOn_report [SetOrder] (hlends : g.Lends g' A) (hback : g'.Lends g A)
    (hrecords : ∀ id ∈ g.thirdParty, A id.key →
      store'.recordsFor id.package = store.recordsFor id.package)
    (h : store.vet mode g policies = .ok report) (h' : store'.vet mode g' policies = .ok report') :
    Report.AgreeOn g A report report' := by
  obtain ⟨hcheck, r, hr, rfl⟩ := vet_eq_ok h
  obtain ⟨_, s, hs, rfl⟩ := vet_eq_ok h'
  have hp : (store.propagator mode policies).Lawful := lawful_propagator hcheck
  have hq : (store'.propagator mode policies).Lawful := lawful_propagator hcheck
  intro id hid hA
  obtain ⟨id', hid', hkey⟩ := hlends.mem_thirdParty hid hA
  have hrequired : s.of id'.key = r.of id.key := by
    have hmember := (DependencyGraph.mem_thirdParty_key.1 (List.mem_map_of_mem hid)).1
    rw [hkey]
    refine Propagator.required_eq_of_lends hp hq rfl rfl hlends hback ?_ hr hs id.key hmember hA
    intro id hid hA hfirst c d
    have hsame : A id.key → store'.recordsFor id.package = store.recordsFor id.package :=
      DependencyGraph.of_forall_thirdParty (P := fun k => A k →
        store'.recordsFor k.package = store.recordsFor k.package) hrecords hid hfirst
    have hresolve : store'.resolve mode id c = store.resolve mode id c :=
      resolve_congr_recordsFor (hsame hA) c
    exact congrArg (fun r => Propagator.asked? r.path d) hresolve
  refine ⟨_, _, Report.find?_of_mem rfl (fun _ => rfl) hid,
    hkey ▸ Report.find?_of_mem rfl (fun _ => rfl) hid', ?_⟩
  rw [hrequired]
  exact agrees_judge hkey (hrecords id hid hA)

/-- Sessions with a past judge packages as a vet does where releases have different precedence. -/
theorem exists_vetAfter_agreeOn [SetOrder] (hclosed : ∀ e ∈ g.edges, A e.child.key → A e.parent.key)
    (hapart : ∀ id ∈ g.thirdParty, A id.key → store.TellsApartAfter past id.key)
    (h : store.vet mode g policies = .ok report) :
    ∃ again, store.vetAfter past mode g policies = .ok again ∧ Report.AgreeOn g A report again := by
  obtain ⟨hcheck, r, hr, rfl⟩ := vet_eq_ok h
  have hp : (store.propagator mode policies).Lawful := lawful_propagator hcheck
  have hq : (store.propagatorAfter past mode policies).Lawful := lawful_propagatorAfter hcheck
  obtain ⟨horder, _⟩ := Propagator.progress_of_propagate hp hr
  obtain ⟨s, hs, _⟩ := Propagator.propagate_of_topological hq horder
  have hvet : store.vetAfter past mode g policies = .ok (store.reportAfter past mode g s) := by
    rw [vetAfter, hcheck, hs]
    rfl
  refine ⟨_, hvet, fun id hid hA => ?_⟩
  have hrequired : s.of id.key = r.of id.key := by
    have hmember := (DependencyGraph.mem_thirdParty_key.1 (List.mem_map_of_mem hid)).1
    refine Propagator.required_eq_of_lends hp hq rfl rfl (.self hclosed) (.self hclosed) ?_ hr hs
      id.key hmember hA
    intro id hid hA hfirst c d
    have htold : A id.key → store.TellsApartAfter past id.key :=
      DependencyGraph.of_forall_thirdParty (P := fun k => A k → store.TellsApartAfter past k)
        hapart hid hfirst
    have hresolve : store.resolveAfter past .passing mode id c = store.resolve mode id c :=
      resolveAfter_eq (htold hA)
    exact congrArg (fun r => Propagator.asked? r.path d) hresolve
  have hjudge : store.judgeAfter past mode id (s.of id.key) =
      store.judge mode id (r.of id.key) := by
    rw [hrequired]
    exact judgeAfter_eq fun c => resolveAfter_eq (hapart id hid hA)
  refine ⟨_, _, Report.find?_of_mem rfl (fun _ => rfl) hid,
    Report.find?_of_mem rfl (fun _ => rfl) hid, ?_⟩
  rw [hjudge]
  exact ⟨rfl, rfl, rfl, rfl, rfl⟩

/-- Verdicts depend on nothing but the packages that depend on what they are about, and on their
records: neither on the rest of the graph, nor on other records, nor on what sessions were asked
before. -/
theorem agreeOn_of_lends [SetOrder] (hlends : g.Lends g' A) (hback : g'.Lends g A)
    (hrecords : ∀ id ∈ g.thirdParty, A id.key →
      store'.recordsFor id.package = store.recordsFor id.package)
    (h : (store.vetLogged mode g policies).outcome = .ok report)
    (h' : (store'.vetLogged mode g' policies).outcome = .ok report') :
    Report.AgreeOn g A report report' ∧ ∀ past past' : Past,
      (∀ id ∈ g.thirdParty, A id.key →
        store.TellsApartAfter past id.key ∧ store'.TellsApartAfter past' id.key) →
          ∃ again again', store.vetAfter past mode g policies = .ok again ∧
            store'.vetAfter past' mode g' policies = .ok again' ∧
              Report.AgreeOn g A report again ∧ Report.AgreeOn g A report again' := by
  rw [outcome_vetLogged] at h h'
  have hagree := agreeOn_report hlends hback hrecords h h'
  refine ⟨hagree, fun past past' hapart => ?_⟩
  obtain ⟨again, hagain, hsame⟩ := exists_vetAfter_agreeOn hlends.closed
    (fun id hid hA => (hapart id hid hA).1) h
  have hapart' : ∀ id ∈ g'.thirdParty, A id.key → store'.TellsApartAfter past' id.key := by
    intro id hid hA
    obtain ⟨other, hother, hkey⟩ := hback.mem_thirdParty hid hA
    exact hkey ▸ (hapart other hother (hkey.symm ▸ hA)).2
  obtain ⟨again', hagain', hsame'⟩ := exists_vetAfter_agreeOn hback.closed hapart' h'
  exact ⟨again, again', hagain, hagain', hsame, hagree.trans hsame' hlends⟩

/-- The middle package as it is reviewed on the workbench, a base that was found to be harmful, and
a tool that someone has used for long. -/
def pipelineRecall : AuditStore .builtin :=
  let v : Version := { major := 1, minor := 0, patch := 0 }
  .ofRecords .builtin [
    .violation { package := "base", versions := ⟨">=1.0.0", [⟨.atLeast, v.toRelease⟩]⟩
                 criteria := .single safeToRun },
    .full { package := "middle", version := v, criteria := .single safeToDeploy
            dependencyCriteria := .ofList [("base", .single safeToRun)] },
    .exemption { package := "tool", version := v, criteria := .single safeToDeploy }]

theorem agreeOn_of_lends_workbench :
    let A : PackageKey → Prop := fun k => k.package = "app" ∨ k.package = "middle"
    let v : Version := { major := 1, minor := 0, patch := 0 }
    let past : Past := fun _ _ _ _ => [.prime [⟨"base", v⟩, ⟨"middle", { v with minor := 2 }⟩] 4,
      .resolve "middle" (some { v with patch := 1 }) safeToRun]
    workbench.Lends pipeline A ∧ pipeline.Lends workbench A ∧
      (∀ id ∈ workbench.thirdParty, A id.key →
        workbenchReviews.TellsApartAfter past id.key ∧ pipelineRecall.TellsApartAfter past id.key) ∧
      ∃ report report' again again',
        (workbenchReviews.vetLogged .deny workbench {}).outcome = .ok report ∧
          (pipelineRecall.vetLogged .deny pipeline {}).outcome = .ok report' ∧
          workbenchReviews.vetAfter past .deny workbench {} = .ok again ∧
          pipelineRecall.vetAfter past .deny pipeline {} = .ok again' ∧
            report.conclusion = .success ∧ report'.conclusion = .failViolation ∧
              Report.AgreeOn workbench A report report' ∧ Report.AgreeOn workbench A report again ∧
                Report.AgreeOn workbench A report again' := by
  intro A v past
  have hlends : workbench.Lends pipeline A :=
    ⟨by decide +kernel, by decide +kernel, by decide +kernel, by decide +kernel⟩
  have hback : pipeline.Lends workbench A :=
    ⟨by decide +kernel, by decide +kernel, by decide +kernel, by decide +kernel⟩
  have hmiddle : ∀ id ∈ workbench.thirdParty, A id.key →
      id.package = "middle" ∧ id.version.toRelease = v.toRelease := by decide +kernel
  have hrecords : ∀ id ∈ workbench.thirdParty, A id.key →
      pipelineRecall.recordsFor id.package = workbenchReviews.recordsFor id.package := by
    intro id hid hA
    rw [(hmiddle id hid hA).1]
    rfl
  have hapart : ∀ id ∈ workbench.thirdParty, A id.key →
      workbenchReviews.TellsApartAfter past id.key ∧
        pipelineRecall.TellsApartAfter past id.key := by
    intro id hid hA
    obtain ⟨hpackage, hrelease⟩ := hmiddle id hid hA
    have hkey : id.key = ⟨"middle", v.toRelease⟩ := by rw [PackageId.key, hpackage, hrelease]
    rw [hkey]
    exact ⟨fun _ _ _ => by decide +kernel, fun _ _ _ => by decide +kernel⟩
  obtain ⟨report, hvet, hpass⟩ : ∃ report,
      (workbenchReviews.vetLogged .deny workbench {}).outcome = .ok report ∧
        report.conclusion = .success := exists_report_of_conclusion (by decide +kernel)
  obtain ⟨report', hvet', hfail⟩ : ∃ report,
      (pipelineRecall.vetLogged .deny pipeline {}).outcome = .ok report ∧
        report.conclusion = .failViolation := exists_report_of_conclusion (by decide +kernel)
  obtain ⟨hagree, hsessions⟩ := agreeOn_of_lends hlends hback hrecords hvet hvet'
  obtain ⟨again, again', hagain, hagain', hsame, hsame'⟩ := hsessions past past hapart
  exact ⟨hlends, hback, hapart, report, report', again, again', hvet, hvet', hagain, hagain', hpass,
    hfail, hagree, hsame, hsame'⟩

end AuditStore

end Vetting
