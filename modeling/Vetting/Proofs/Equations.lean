import Vetting.Proofs.Propagation

/-! Propagation solves the requirement equations: no package owes less than what the edges to it
transmit, none owes more, and every share of it is ascribed to the package that it comes from. -/

namespace Vetting

def DependencyGraph.between (g : DependencyGraph) (a k : PackageKey) : List Dependency :=
  (g.dependents k).filter fun e => e.parent.key = a

theorem DependencyGraph.mem_between {g : DependencyGraph} {a k : PackageKey} {e : Dependency} :
    e ∈ g.between a k ↔ e ∈ g.edges ∧ e.child.key = k ∧ e.parent.key = a := by
  rw [between, List.mem_filter, mem_dependents, decide_eq_true_eq, and_assoc]

namespace Requirements

variable (r : Requirements) {a k : PackageKey} {s : NameSet} {c : String}

def share (a k : PackageKey) : NameSet := sumFor (r.sent.filter fun t => t.parent.key = a) k

theorem mem_share :
    c ∈ r.share a k ↔ ∃ t ∈ r.sent, t.child = k ∧ t.parent.key = a ∧ c ∈ t.criteria := by
  rw [share, mem_sumFor]
  simp only [List.mem_filter, decide_eq_true_eq, and_assoc, and_left_comm]

theorem nodup_sourcesOf : ((r.sourcesOf k).map fun s => s.1.key).Nodup := by
  rw [sourcesOf, List.map_map]
  exact nodup_map_distinctOn (fun t : Transmission => t.parent.key) _

theorem mem_sourcesOf : (∃ v : PackageId, v.key = a ∧ (v, s) ∈ r.sourcesOf k) ↔
    (∃ t ∈ r.sent, t.child = k ∧ t.parent.key = a) ∧ s = r.share a k := by
  constructor
  · intro hx
    obtain ⟨v, hv, hmem⟩ := hx
    obtain ⟨t, ht, heq⟩ := List.mem_map.1 hmem
    obtain ⟨rfl, rfl⟩ := Prod.mk.inj heq
    obtain ⟨hsent, hchild⟩ := List.mem_filter.1 (mem_of_mem_distinctOn ht)
    refine ⟨⟨t, hsent, of_decide_eq_true hchild, hv⟩, ?_⟩
    rw [share, hv]
  · intro hx
    obtain ⟨⟨t, ht, hchild, hparent⟩, rfl⟩ := hx
    have hto : t ∈ r.sent.filter fun t => t.child = k :=
      List.mem_filter.2 ⟨ht, decide_eq_true hchild⟩
    obtain ⟨u, hu, hkey⟩ : ∃ u ∈ distinctOn (fun t : Transmission => t.parent.key)
        (r.sent.filter fun t => t.child = k), u.parent.key = t.parent.key :=
      exists_mem_distinctOn hto
    have hua : u.parent.key = a := hkey.trans hparent
    refine ⟨u.parent, hua, List.mem_map.2 ⟨u, hu, ?_⟩⟩
    rw [share, hua]

theorem unions_sourcesOf : .unions ((r.sourcesOf k).map Prod.snd) = r.of k := by
  ext c
  rw [NameSet.mem_unions, of, mem_sumFor]
  constructor
  · intro hx
    obtain ⟨s, hs, hc⟩ := hx
    obtain ⟨⟨v, _⟩, hmem, rfl⟩ := List.mem_map.1 hs
    obtain ⟨_, hshare⟩ := r.mem_sourcesOf.1 ⟨v, rfl, hmem⟩
    obtain ⟨t, ht, hchild, _, hct⟩ := r.mem_share.1 (hshare ▸ hc)
    exact ⟨t, ht, hchild, hct⟩
  · intro hx
    obtain ⟨t, ht, hchild, hc⟩ := hx
    obtain ⟨v, _, hmem⟩ := r.mem_sourcesOf.2 ⟨⟨t, ht, hchild, rfl⟩, rfl⟩
    exact ⟨_, List.mem_map_of_mem hmem, r.mem_share.2 ⟨t, ht, hchild, rfl, hc⟩⟩

end Requirements

namespace Propagator

open Requirements (sumFor mem_sumFor)

/-- What some edges transmit when the same criteria are required of their parents throughout. -/
def gathered (p : Propagator) (g : DependencyGraph) (R : PackageKey → NameSet) :
    List Dependency → Except CriteriaFault NameSet
  | [] => .ok ∅
  | e :: es => do
    let criteria ← p.transmitted g e.parent e.child e.kind (R e.parent.key)
    let rest ← gathered p g R es
    pure (criteria ∪ rest)

/-- Whether nothing is required of first-party packages, and of every other package just what
the edges to it transmit. -/
structure Solves (p : Propagator) (g : DependencyGraph) (R : PackageKey → NameSet) : Prop where
  firstParty : ∀ k ∈ g.members.map Member.key, g.isFirstParty k = true → R k = ∅
  thirdParty : ∀ k ∈ g.members.map Member.key, g.isFirstParty k = false →
    p.gathered g R (g.dependents k) = .ok (R k)

/-- Whether sources ascribe to every package what its edges transmit, nothing else, and in sum
all that is required. -/
structure Ascribes (p : Propagator) (g : DependencyGraph) (R : PackageKey → NameSet)
    (sources : PackageKey → List (PackageId × NameSet)) : Prop where
  once : ∀ k, ((sources k).map fun s => s.1.key).Nodup
  entry : ∀ k ∈ g.members.map Member.key, g.isFirstParty k = false → ∀ a, ∃ shared,
    p.gathered g R (g.between a k) = .ok shared ∧
      ∀ s, (∃ v : PackageId, v.key = a ∧ (v, s) ∈ sources k) ↔ shared ≠ ∅ ∧ s = shared
  total : ∀ k, .unions ((sources k).map Prod.snd) = R k

variable {p : Propagator} {g : DependencyGraph} {v : PackageId} {c : String}
  {a k : PackageKey} {R S : PackageKey → NameSet} {set : NameSet}
  {edges : List Dependency} {order : List PackageId} {sent : List Transmission}

theorem gathered_congr (h : ∀ e ∈ edges, R e.parent.key = S e.parent.key) :
    p.gathered g R edges = p.gathered g S edges := by
  induction edges with
  | nil => rfl
  | cons e es ih =>
    obtain ⟨he, hes⟩ := List.forall_mem_cons.1 h
    rw [gathered, gathered, he, ih hes]

theorem gathered_eq_ok (hknown : ∀ e ∈ edges, ∀ c ∈ R e.parent.key, c ∈ p.model)
    (h : ∀ c, c ∈ set ↔ ∃ e ∈ edges, c ∈ p.owed g e.parent e.child e.kind (R e.parent.key)) :
    p.gathered g R edges = .ok set := by
  induction edges generalizing set with
  | nil =>
    have hempty : set = ∅ := by
      ext c
      rw [h]
      simp
    rw [hempty, gathered]
  | cons e es ih =>
    obtain ⟨he, hes⟩ := List.forall_mem_cons.1 hknown
    let rest : NameSet :=
      .unions (es.map fun e => p.owed g e.parent e.child e.kind (R e.parent.key))
    have hrest : ∀ c, c ∈ rest ↔
        ∃ e ∈ es, c ∈ p.owed g e.parent e.child e.kind (R e.parent.key) := by
      intro c
      rw [NameSet.mem_unions]
      simp only [List.mem_map, exists_exists_and_eq_and]
    have hset : set = p.owed g e.parent e.child e.kind (R e.parent.key) ∪ rest := by
      ext c
      rw [h, List.exists_mem_cons_iff, NameSet.mem_union, hrest]
    rw [gathered, transmitted_of_known he, ih hes hrest, hset]
    rfl

/-- Solutions agree on the packages of a dependents-first order: the equations of each are about
packages that come before it. -/
theorem Solves.eq_on (hR : p.Solves g R) (hS : p.Solves g S) {done : List PackageKey}
    (horder : DependencyGraph.DependentsFirst g.edges done order)
    (hmem : ∀ v ∈ order, v.key ∈ g.members.map Member.key) (hdone : ∀ k ∈ done, R k = S k) :
    ∀ v ∈ order, R v.key = S v.key := by
  induction order generalizing done with
  | nil => exact fun v hv => absurd hv List.not_mem_nil
  | cons v vs ih =>
    obtain ⟨hwait, hrest⟩ := horder
    obtain ⟨hv, hvs⟩ := List.forall_mem_cons.1 hmem
    have heq : R v.key = S v.key := by
      cases hfirst : g.isFirstParty v.key with
      | true => rw [hR.firstParty _ hv hfirst, hS.firstParty _ hv hfirst]
      | false =>
        -- All parents are done, so both sides gather from assignments that agree there.
        have hgathered : p.gathered g R (g.dependents v.key) =
            p.gathered g S (g.dependents v.key) := by
          refine gathered_congr fun e he => hdone _ ?_
          obtain ⟨hedge, hchild⟩ := DependencyGraph.mem_dependents.1 he
          exact hwait e hedge hchild
        rw [hR.thirdParty _ hv hfirst, hS.thirdParty _ hv hfirst] at hgathered
        exact Except.ok.inj hgathered
    exact List.forall_mem_cons.2 ⟨heq, ih hrest hvs (List.forall_mem_cons.2 ⟨heq, hdone⟩)⟩

namespace Progress

theorem mem_sent_iff (hp : p.Lawful) (h : p.Progress g order sent)
    (hall : ∀ k ∈ g.members.map Member.key, k ∈ order.map PackageId.key)
    (hk : g.isFirstParty k = false) :
    (∃ t ∈ sent, t.child = k ∧ t.parent.key = a ∧ c ∈ t.criteria) ↔
      ∃ e ∈ g.between a k, c ∈ p.owed g e.parent e.child e.kind (sumFor sent e.parent.key) := by
  constructor
  · intro hx
    obtain ⟨t, ht, hchild, hparent, hc⟩ := hx
    obtain ⟨v, _, e, he, _, rfl, _⟩ := (h.sent_iff t).1 ht
    obtain ⟨hedge, hkey⟩ := DependencyGraph.mem_dependencies.1 he
    refine ⟨e, DependencyGraph.mem_between.2 ⟨hedge, hchild, hkey.trans hparent⟩, ?_⟩
    rwa [owed_congr_key hp hkey, hkey]
  · intro hx
    obtain ⟨e, he, hc⟩ := hx
    -- The order has the parent under a name of its own; only the key of it matters.
    obtain ⟨hedge, rfl, rfl⟩ := DependencyGraph.mem_between.1 he
    obtain ⟨v, hv, hkey⟩ := List.mem_map.1 (hall _ (g.edges_closed e hedge).1)
    have hmem := DependencyGraph.mem_dependencies.2 ⟨hedge, hkey.symm⟩
    rw [owed_congr_key hp hkey.symm, ← hkey] at hc
    exact ⟨_, (h.sent_iff _).2 ⟨v, hv, e, hmem, hk, rfl, c, hc⟩, rfl, hkey, hc⟩

theorem filter_sent_firstParty (h : p.Progress g order sent) (hk : g.isFirstParty k = true) :
    sent.filter (fun t => t.child = k) = [] := by
  rw [List.filter_eq_nil_iff]
  intro t ht hchild
  obtain ⟨v, _, e, _, hthird, rfl, _⟩ := (h.sent_iff t).1 ht
  have hkey : e.child.key = k := of_decide_eq_true hchild
  rw [hkey, hk] at hthird
  cases hthird

variable {r : Requirements}

theorem mem_of (hp : p.Lawful) (h : p.Progress g order r.sent)
    (hall : ∀ k ∈ g.members.map Member.key, k ∈ order.map PackageId.key)
    (hk : g.isFirstParty k = false) :
    c ∈ r.of k ↔ ∃ e ∈ g.dependents k,
      c ∈ p.owed g e.parent e.child e.kind (r.of e.parent.key) := by
  rw [Requirements.of, mem_sumFor]
  constructor
  · intro hx
    obtain ⟨t, ht, hchild, hc⟩ := hx
    obtain ⟨e, he, hce⟩ := (h.mem_sent_iff hp hall hk).1 ⟨t, ht, hchild, rfl, hc⟩
    exact ⟨e, (List.mem_filter.1 he).1, hce⟩
  · intro hx
    obtain ⟨e, he, hce⟩ := hx
    have hbetween : e ∈ g.between e.parent.key k := List.mem_filter.2 ⟨he, decide_eq_true rfl⟩
    obtain ⟨t, ht, hchild, _, hc⟩ := (h.mem_sent_iff hp hall hk).2 ⟨e, hbetween, hce⟩
    exact ⟨t, ht, hchild, hc⟩

theorem solves (hp : p.Lawful) (h : p.Progress g order r.sent)
    (hall : ∀ k ∈ g.members.map Member.key, k ∈ order.map PackageId.key) : p.Solves g r.of := by
  refine ⟨fun k _ hfirst => ?_, fun k _ hthird => ?_⟩
  · rw [Requirements.of, sumFor, h.filter_sent_firstParty hfirst]
    rfl
  · exact gathered_eq_ok (fun e _ c hc => h.known_sumFor c hc) fun c => h.mem_of hp hall hthird

theorem ascribes (hp : p.Lawful) (h : p.Progress g order r.sent)
    (hall : ∀ k ∈ g.members.map Member.key, k ∈ order.map PackageId.key) :
    p.Ascribes g r.of r.sourcesOf := by
  refine ⟨fun _ => r.nodup_sourcesOf, fun k _ hthird a => ?_, fun _ => r.unions_sourcesOf⟩
  have hshared : ∀ c, c ∈ r.share a k ↔
      ∃ t ∈ r.sent, t.child = k ∧ t.parent.key = a ∧ c ∈ t.criteria := fun _ => r.mem_share
  have hgathered : p.gathered g r.of (g.between a k) = .ok (r.share a k) := by
    refine gathered_eq_ok (fun e _ c hc => h.known_sumFor c hc) fun c => ?_
    rw [hshared]
    exact h.mem_sent_iff hp hall hthird
  have hsome : (∃ t ∈ r.sent, t.child = k ∧ t.parent.key = a) ↔ r.share a k ≠ ∅ := by
    constructor
    · rintro ⟨t, ht, hchild, hparent⟩ hempty
      obtain ⟨_, _, _, _, _, _, c, hc⟩ := (h.sent_iff t).1 ht
      have hmem : c ∈ r.share a k := (hshared c).2 ⟨t, ht, hchild, hparent, hc⟩
      rw [hempty] at hmem
      exact NameSet.not_mem_empty c hmem
    · intro hne
      by_contra hnone
      refine hne (NameSet.ext fun c => ⟨fun hc => ?_, fun hc => absurd hc (by simp)⟩)
      obtain ⟨t, ht, hchild, hparent, _⟩ := (hshared c).1 hc
      exact absurd ⟨t, ht, hchild, hparent⟩ hnone
  refine ⟨r.share a k, hgathered, fun s => ?_⟩
  rw [r.mem_sourcesOf, hsome]

end Progress

/-- What is owed over an edge is required where the edge leads. -/
theorem required_of_owed (hp : p.Lawful) {r : Requirements} (hr : p.propagate g = .ok r)
    {e : Dependency} (he : e ∈ g.edges) (hthird : g.isFirstParty e.child.key = false)
    (hc : c ∈ p.owed g e.parent e.child e.kind (r.of e.parent.key)) : c ∈ r.of e.child.key := by
  obtain ⟨horder, hprogress⟩ := progress_of_propagate hp hr
  have hall := DependencyGraph.mem_of_topological horder
  have hdependent : e ∈ g.dependents e.child.key := DependencyGraph.mem_dependents.2 ⟨he, rfl⟩
  exact (hprogress.mem_of hp hall hthird).2 ⟨e, hdependent, hc⟩

/-- Propagation finds the one solution of the requirement equations and whom to ascribe it to. -/
theorem propagate_solves [SetOrder] {model : CriteriaModel} (hg : g.Acyclic)
    {policies : PolicyTable} (hpolicies : policies.check model = .ok ())
    (resolver : Option (AuditStore model × ExemptionMode)) :
    ∃ r, (through policies resolver).propagate g = .ok r ∧
      (r.order.map PackageId.key).Perm (g.members.map Member.key) ∧
      (through policies resolver).Solves g r.of ∧
      (∀ R, (through policies resolver).Solves g R →
        ∀ k ∈ g.members.map Member.key, R k = r.of k) ∧
      (∀ k, g.isFirstParty k = true → r.sourcesOf k = []) ∧
      (through policies resolver).Ascribes g r.of r.sourcesOf := by
  have hp := lawful_through hpolicies resolver
  have horder := DependencyGraph.topological_of_acyclic hg
  have hperm := (DependencyGraph.topological_eq_ok horder).2
  have hall := DependencyGraph.mem_of_topological horder
  obtain ⟨r, hr, hrorder, hprogress⟩ := propagate_of_topological hp horder
  have hsolves := hprogress.solves hp hall
  refine ⟨r, hr, hrorder ▸ hperm, hsolves, fun R hR k hk => ?_, fun k hk => ?_,
    hprogress.ascribes hp hall⟩
  · obtain ⟨v, hv, rfl⟩ := List.mem_map.1 (hall k hk)
    refine hR.eq_on hsolves g.dependentsFirst_order (fun w hw => ?_)
      (fun _ h => absurd h List.not_mem_nil) v hv
    exact hperm.mem_iff.1 (List.mem_map_of_mem hw)
  · rw [Requirements.sourcesOf, hprogress.filter_sent_firstParty hk]
    rfl

end Propagator

/-- An application with a tool of its own, both of which need a package: the tool to build, and
the application by way of another package that needs it in two ways. -/
def workbench : DependencyGraph :=
  let id : String → PackageId := fun name => ⟨name, { major := 1, minor := 0, patch := 0 }⟩
  { members := [⟨id "app", { id := id "app", firstParty := true }⟩,
      ⟨id "base", { id := id "base" }⟩, ⟨id "middle", { id := id "middle" }⟩,
      ⟨id "tool", { id := id "tool", firstParty := true }⟩]
    edges := [⟨id "app", id "tool", .normal⟩, ⟨id "middle", id "base", .dev⟩,
      ⟨id "tool", id "base", .build⟩, ⟨id "app", id "middle", .normal⟩,
      ⟨id "middle", id "base", .normal⟩]
    keys_nodup := by decide +kernel
    node_key := by decide +kernel
    edges_distinct := by decide +kernel
    edges_closed := by decide +kernel }

/-- Reviews of what the workbench is made of. The middle package was reviewed on the premise that
its base is only run. -/
def workbenchReviews : AuditStore .builtin :=
  let v : Version := { major := 1, minor := 0, patch := 0 }
  .ofRecords .builtin [
    .full { package := "middle", version := v, criteria := .single safeToDeploy
            dependencyCriteria := .ofList [("base", .single safeToRun)] },
    .full { package := "base", version := v, criteria := .single safeToRun }]

theorem acyclic_workbench : workbench.Acyclic :=
  DependencyGraph.acyclic_iff.2 (if_pos (by decide +kernel))

theorem Propagator.propagate_solves_workbench :
    workbench.Acyclic ∧ ({} : PolicyTable).check .builtin = .ok () ∧
      ∃ r, (through {} (some (workbenchReviews, .deny))).propagate workbench = .ok r ∧
        (r.order.map PackageId.key).Perm (workbench.members.map Member.key) ∧
        (through {} (some (workbenchReviews, .deny))).Solves workbench r.of ∧
        (∀ R, (through {} (some (workbenchReviews, .deny))).Solves workbench R →
          ∀ k ∈ workbench.members.map Member.key, R k = r.of k) ∧
        (∀ k, workbench.isFirstParty k = true → r.sourcesOf k = []) ∧
        (through {} (some (workbenchReviews, .deny))).Ascribes workbench r.of r.sourcesOf :=
  have hpolicies : ({} : PolicyTable).check .builtin = .ok () :=
    PolicyTable.check_eq_ok_iff.2 (by decide +kernel)
  ⟨acyclic_workbench, hpolicies, propagate_solves acyclic_workbench hpolicies _⟩

end Vetting
