import Vetting.Proofs.GrowingRequirements
import Vetting.Proofs.PrimedSessions
import Vetting.Proofs.SharedSessions
import Vetting.Resolution.Propagation

/-! Propagation by way of sessions. Where a session finds the same records behind a criterion
whenever it is asked, propagation through it is that by these records, so that requirements grow.
Releases of the same precedence break this: what a session was asked before may decide which of
them a path leads over. -/

namespace Vetting

theorem lookup_map_pair {α : Type} {f : String → α} {c : String} {cs : List String} (hc : c ∈ cs) :
    (cs.map fun d => (d, f d)).lookup c = some (f c) := by
  induction cs with
  | nil => cases hc
  | cons d ds ih =>
    rw [List.map_cons, NameMap.lookup_cons_eq]
    split
    · next h => rw [h]
    · next h => exact ih ((List.mem_cons.1 hc).resolve_left h)

namespace Session

variable {model : CriteriaModel} {store : AuditStore model} {mode : ExemptionMode}
  {policies policies' : PolicyTable} {g g' : DependencyGraph} {evidence : Evidence}
  {kind : Session store → Prop} {s : Session store} {id : PackageId} {vs : List PackageId}
  {calls : List Call}

/-- Whether sessions of some kind find certain records behind every criterion of the third-party
packages of a graph, and are still of that kind when they have been asked. -/
structure Finds [SetOrder] (g : DependencyGraph) (evidence : Evidence)
    (kind : Session store → Prop) : Prop where
  path_eq : ∀ s, kind s → ∀ id ∈ g.order, g.isFirstParty id.key = false →
    ∀ c, (s.resolve id c).1.path = evidence id c
  resolve : ∀ s, kind s → ∀ id ∈ g.order, g.isFirstParty id.key = false →
    ∀ c, kind (s.resolve id c).2

theorem Finds.pathsOf [SetOrder] (h : Finds g evidence kind) (hs : kind s) (hid : id ∈ g.order)
    (hthird : g.isFirstParty id.key = false) (cs : List String) :
    (s.pathsOf id cs).1 = cs.map (fun c => (c, evidence id c)) ∧ kind (s.pathsOf id cs).2 := by
  induction cs generalizing s with
  | nil => exact ⟨rfl, hs⟩
  | cons c cs ih =>
    obtain ⟨hpaths, hlater⟩ := ih (h.resolve s hs id hid hthird c)
    refine ⟨?_, hlater⟩
    rw [Session.pathsOf, List.map_cons, ← hpaths, ← h.path_eq s hs id hid hthird c]

/-- What a package passes on by the paths that a session finds is what it does by the records. -/
theorem Finds.sendOver_eq [SetOrder] (h : Finds g evidence kind) (hs : kind s) (hid : id ∈ g.order)
    (policies : PolicyTable) (required : NameSet) :
    ∃ paths t, (if g.passesOn id then s.pathsOf id required.toList else ([], s)) = (paths, t) ∧
      kind t ∧
      (⟨model, policies, some fun _ c => (paths.lookup c).getD []⟩ : Propagator).sendOver g id
          required (g.dependencies id.key) =
        (⟨model, policies, some evidence⟩ : Propagator).sendOver g id required
          (g.dependencies id.key) := by
  by_cases hpasses : g.passesOn id = true
  · rw [if_pos hpasses]
    obtain ⟨hfirst, _⟩ := Bool.and_eq_true_iff.1 hpasses
    have hthird : g.isFirstParty id.key = false := by simpa using hfirst
    obtain ⟨hpaths, hlater⟩ := h.pathsOf hs hid hthird required.toList
    refine ⟨_, _, rfl, hlater, Propagator.sendOver_congr rfl rfl rfl fun e _ _ _ c hc => ?_⟩
    have hfound : ((s.pathsOf id required.toList).1.lookup c).getD [] = evidence id c := by
      rw [hpaths, lookup_map_pair (NameSet.mem_toList.2 hc)]
      rfl
    exact congrArg (fun path => Propagator.asked? path e.child.package) hfound
  · rw [if_neg hpasses]
    refine ⟨[], s, rfl, hs, Propagator.sendOver_congr rfl rfl rfl fun e he hchild hthird => ?_⟩
    refine absurd (Bool.and_eq_true_iff.2 ⟨?_, ?_⟩) hpasses
    · rw [hthird]
      rfl
    · exact List.any_eq_true.2 ⟨e, he, by rw [hchild]; rfl⟩

theorem Finds.sendAll_eq [SetOrder] (h : Finds g evidence kind) (hs : kind s)
    (policies : PolicyTable) (sent : List Transmission) (hvs : ∀ v ∈ vs, v ∈ g.order) :
    ∃ t, kind t ∧ Session.sendAll policies g s sent vs =
      ((⟨model, policies, some evidence⟩ : Propagator).sendAll g sent vs).map fun all =>
        (all, t) := by
  induction vs generalizing s sent with
  | nil => exact ⟨s, hs, rfl⟩
  | cons v vs ih =>
    obtain ⟨paths, t, hpaths, ht, hsend⟩ := h.sendOver_eq hs (hvs v (List.mem_cons_self ..))
      policies (Requirements.sumFor sent v.key)
    simp only [Session.sendAll, Propagator.sendAll, hpaths, hsend]
    cases hmore : (⟨model, policies, some evidence⟩ : Propagator).sendOver g v
        (Requirements.sumFor sent v.key) (g.dependencies v.key) with
    | error fault => exact ⟨t, ht, rfl⟩
    | ok more => exact ih ht (sent ++ more) fun w hw => hvs w (List.mem_cons_of_mem _ hw)

/-- Propagation through a session that finds certain records is propagation by these records. -/
theorem Finds.propagate_eq [SetOrder] (h : Finds g evidence kind) (hs : kind s)
    (policies : PolicyTable) :
    ∃ t, kind t ∧ s.propagate policies g =
      ((⟨model, policies, some evidence⟩ : Propagator).propagate g).map fun r => (r, t) := by
  rw [Session.propagate, Propagator.propagate]
  cases horder : g.topological with
  | error fault => exact ⟨s, hs, rfl⟩
  | ok order =>
    obtain ⟨rfl, _⟩ := DependencyGraph.topological_eq_ok horder
    obtain ⟨t, ht, hsent⟩ := h.sendAll_eq hs policies [] fun _ hv => hv
    refine ⟨t, ht, ?_⟩
    rw [ok_bind, ok_bind, hsent]
    cases (⟨model, policies, some evidence⟩ : Propagator).sendAll g [] g.order with
    | error fault => rfl
    | ok all => rfl

/-- Whether releases of one third-party package have different precedence, as far as its records
name them, a session was asked about them or a graph has them. -/
def TellsApart (store : AuditStore model) (calls : List Call) (g : DependencyGraph) : Prop :=
  ∀ id ∈ g.thirdParty,
    Release.Apart (releasesMet store (calls ++ [.prime g.thirdParty 1]) id.package)

theorem mem_releasesMet_prime {package : String} {ids : List PackageId} {r : Release} :
    r ∈ releasesMet store (calls ++ [.prime ids 1]) package ↔
      r ∈ releasesMet store calls package ∨
        (⟨package, r⟩ : PackageKey) ∈ ids.map PackageId.key := by
  have hids : r ∈ ((ids.filter fun id => id.package = package).map PackageId.version).map
      Version.toRelease ↔ (⟨package, r⟩ : PackageKey) ∈ ids.map PackageId.key := by
    simp only [List.map_map, List.mem_map, List.mem_filter, decide_eq_true_eq, and_assoc]
    refine exists_congr fun id => and_congr_right fun _ => ?_
    rw [PackageId.key, PackageKey.mk.injEq]
    rfl
  rw [← hids, mem_releasesMet, mem_releasesMet, or_assoc, List.flatMap_append, List.map_append,
    List.mem_append, List.flatMap_singleton]
  rfl

/-- The third-party packages that requirements go through are those of a graph with as many. -/
theorem mem_thirdParty_of_order (hkeys : ∀ k, k ∈ g'.thirdParty.map PackageId.key →
      k ∈ g.thirdParty.map PackageId.key) (hid : id ∈ g'.order)
    (hthird : g'.isFirstParty id.key = false) : id.key ∈ g.thirdParty.map PackageId.key :=
  hkeys _ (DependencyGraph.mem_thirdParty_key.2
    ⟨g'.mem_members_of_mem_order (List.mem_map_of_mem hid), hthird⟩)

/-- Where releases are told apart, a session finds the records that a new one would, however sets
are gone through. -/
theorem TellsApart.finds (other : SetOrder) [SetOrder] (h : TellsApart store calls g)
    (mode : ExemptionMode)
    (hkeys : ∀ k, k ∈ g'.thirdParty.map PackageId.key → k ∈ g.thirdParty.map PackageId.key) :
    ∃ kind : Session store → Prop, Finds g' (@AuditStore.evidence other model store mode) kind ∧
      kind ((start store mode).after calls) := by
  let ids := g'.order.filter fun id => !g'.isFirstParty id.key
  have hasked : ∀ id ∈ g'.order, g'.isFirstParty id.key = false →
      id.version ∈ (calls ++ [Call.prime ids 1]).flatMap (Call.versionsOf id.package) := by
    intro id hid hthird
    have hmem : id ∈ ids := List.mem_filter.2 ⟨hid, by rw [hthird]; rfl⟩
    refine mem_versionsOf_last (List.mem_map_of_mem (List.mem_filter.2 ⟨hmem, ?_⟩))
    exact decide_eq_true rfl
  have hapart : ∀ id ∈ g'.order, g'.isFirstParty id.key = false →
      Release.Apart (releasesMet store (calls ++ [.prime ids 1]) id.package) := by
    intro id hid hthird
    obtain ⟨same, hsame, hkey⟩ := List.mem_map.1 (mem_thirdParty_of_order hkeys hid hthird)
    have hpackage : same.package = id.package := congrArg PackageKey.package hkey
    refine (hpackage ▸ h same hsame).subset fun r hr => ?_
    refine mem_releasesMet_prime.2 ((mem_releasesMet_prime.1 hr).imp_right fun hkey => ?_)
    obtain ⟨other, hother, hr⟩ := List.mem_map.1 hkey
    obtain ⟨horder, hfirst⟩ := List.mem_filter.1 hother
    exact hr ▸ mem_thirdParty_of_order hkeys horder (by simpa using hfirst)
  refine ⟨Recalls mode (calls ++ [.prime ids 1]), ⟨?_, ?_⟩, (recalls_after calls).later _⟩
  · intro s hs id hid hthird c
    have hmet : ∀ r ∈ (AuditGraph.known store id.package [id.version]).map Version.toRelease,
        r ∈ releasesMet store (calls ++ [.prime ids 1]) id.package := by
      intro r hr
      refine mem_releasesMet.2 ((AuditGraph.mem_map_known.1 hr).imp_right fun hself => ?_)
      obtain rfl := List.mem_singleton.1 hself
      exact List.mem_map_of_mem (hasked id hid hthird)
    rw [hs.resolve_eq (hasked id hid hthird) (hapart id hid hthird)]
    exact congrArg Resolution.path
      (AuditStore.resolve_congr_order ((hapart id hid hthird).subset hmet))
  · intro s hs id hid hthird c
    exact hs.resolve (hasked id hid hthird)

/-- A session learns nothing from packages that it knows, and so finds the same records again. -/
theorem Knows.finds [SetOrder] (h : s.Knows g)
    (hkeys : ∀ k, k ∈ g'.thirdParty.map PackageId.key → k ∈ g.thirdParty.map PackageId.key) :
    Finds g' (fun id c => (s.resolve id c).1.path) fun t => t = s where
  path_eq t ht id _ _ c := by rw [ht]
  resolve t ht id hid hthird c := by
    have hknown : (s.graph id.package).has id.version.toRelease = true :=
      h _ (mem_thirdParty_of_order hkeys hid hthird)
    have hgrow : s.grow id.package id.version = s := if_pos hknown
    rw [ht, Session.resolve]
    dsimp only
    split
    · exact hgrow
    · rfl

/-- Whether a session requires something of the packages of a graph, when it was asked something
before and sets are gone through in some order. -/
def Requires (order : SetOrder) (store : AuditStore model) (mode : ExemptionMode)
    (calls : List Call) (policies : PolicyTable) (g : DependencyGraph) (r : Requirements) : Prop :=
  ∃ t, ((start store mode).after calls).propagate policies g = .ok (r, t)

/-- More edges and policies that ask for more require of no package less: without records, through
sessions with any past and any order of sets where releases are told apart, and through one session
that knows all packages whatever the precedence of their releases. -/
theorem propagate_mono (hg : g'.Acyclic) (hgrows : g.GrowsTo g')
    (hcheck : policies.check model = .ok ()) (hcheck' : policies'.check model = .ok ())
    (hpolicies : ∀ a d kind, ∀ c ∈ policies.requiredOf a d kind, c ∈ policies'.requiredOf a d kind)
    (store : AuditStore model) (mode : ExemptionMode) :
    (∃ r r', (⟨model, policies, none⟩ : Propagator).propagate g = .ok r ∧
      (⟨model, policies', none⟩ : Propagator).propagate g' = .ok r' ∧ r.Within g r') ∧
    (∀ order order' calls calls', TellsApart store calls g → TellsApart store calls' g →
      ∃ r r', Requires order store mode calls policies g r ∧
        Requires order' store mode calls' policies' g' r' ∧ r.Within g r') ∧
    ∀ (_ : SetOrder) (s : Session store), s.Knows g → ∃ r r', s.propagate policies g = .ok (r, s) ∧
      s.propagate policies' g' = .ok (r', s) ∧ r.Within g r' := by
  have hkeys : ∀ k, k ∈ g'.thirdParty.map PackageId.key → k ∈ g.thirdParty.map PackageId.key := by
    intro k hk
    obtain ⟨hmember, hthird⟩ := DependencyGraph.mem_thirdParty_key.1 hk
    exact DependencyGraph.mem_thirdParty_key.2
      ⟨(hgrows.members k).2 hmember, (hgrows.firstParty k).trans hthird⟩
  have hgrowing : ∀ evidence, (⟨model, policies, evidence⟩ : Propagator).GrowsTo
      ⟨model, policies', evidence⟩ := fun _ => ⟨rfl, fun _ _ _ => rfl, hpolicies⟩
  refine ⟨?_, fun order order' calls calls' hcalls hcalls' => ?_, fun _ s hs => ?_⟩
  · have hnone : ∀ {t : PolicyTable}, t.check model = .ok () →
        (⟨model, t, none⟩ : Propagator).Lawful := fun ht =>
      Propagator.lawful_through ht (none : Option (AuditStore model × ExemptionMode))
    exact (hgrowing none).propagate (hnone hcheck) (hnone hcheck') hg hgrows
  · -- Both sessions find the records that a new one finds in the order of the second.
    obtain ⟨r, r', hr, hr', hwithin⟩ := (hgrowing (some (store.evidence mode))).propagate
      (Propagator.lawful_through hcheck (some (store, mode)))
      (Propagator.lawful_through hcheck' (some (store, mode))) hg hgrows
    obtain ⟨kind, hfinds, hs⟩ := @TellsApart.finds _ _ _ _ _ order' order hcalls mode fun _ hk => hk
    obtain ⟨kind', hfinds', hs'⟩ := hcalls'.finds order' mode hkeys
    obtain ⟨t, _, ht⟩ := @Finds.propagate_eq _ _ _ _ _ _ order hfinds hs policies
    obtain ⟨t', _, ht'⟩ := hfinds'.propagate_eq hs' policies'
    rw [hr] at ht
    rw [hr'] at ht'
    exact ⟨r, r', ⟨t, ht⟩, ⟨t', ht'⟩, hwithin⟩
  · obtain ⟨r, r', hr, hr', hwithin⟩ :=
      (hgrowing (some fun id c => (s.resolve id c).1.path)).propagate
        (lawful_finding hcheck fun _ _ => s) (lawful_finding hcheck' fun _ _ => s) hg hgrows
    have hfinds : Finds g (fun id c => (s.resolve id c).1.path) fun t => t = s :=
      hs.finds fun _ hk => hk
    obtain ⟨_, rfl, ht⟩ := hfinds.propagate_eq rfl policies
    obtain ⟨_, rfl, ht'⟩ := (hs.finds hkeys).propagate_eq rfl policies'
    rw [hr] at ht
    rw [hr'] at ht'
    exact ⟨r, r', ht, ht', hwithin⟩

end Session

/-- The workbench before its middle package made use of the base. -/
def workbenchDraft : DependencyGraph :=
  let id : String → PackageId := fun name => ⟨name, { major := 1, minor := 0, patch := 0 }⟩
  { members := workbench.members
    edges := [⟨id "tool", id "base", .build⟩, ⟨id "app", id "tool", .normal⟩,
      ⟨id "app", id "middle", .normal⟩]
    keys_nodup := workbench.keys_nodup
    node_key := workbench.node_key
    edges_distinct := by decide +kernel
    edges_closed := by decide +kernel }

/-- What the tool is built with has to be as safe as what is deployed. -/
def toolPolicies : PolicyTable where
  policies := (∅ : NameMap Policy).insert "tool"
    { devCriteria := some (.ofList [safeToDeploy, safeToRun]) }

theorem PolicyTable.mem_requiredOf_toolPolicies {a d c : String} {kind : DependencyKind}
    (hc : c ∈ ({} : PolicyTable).requiredOf a d kind) : c ∈ toolPolicies.requiredOf a d kind := by
  rw [requiredOf, policyOf, toolPolicies, NameMap.get?_insert]
  by_cases ha : a = "tool"
  · have hrun : safeToRun ∈ NameSet.ofList [safeToDeploy, safeToRun] := by decide
    rw [if_pos ha]
    cases kind with
    | normal => exact hc
    | build => exact NameSet.mem_single.1 hc ▸ hrun
    | dev => exact NameSet.mem_single.1 hc ▸ hrun
  · rw [if_neg ha]
    exact hc

/-- Sets that are gone through from one end or from the other, as they hold an odd or an even number
of releases. -/
@[reducible]
def SetOrder.turning : SetOrder where
  place := fun _ members r =>
    if members.length % 2 = 1 then members.idxOf r else members.length - members.idxOf r

theorem Session.propagate_mono_workbench :
    let v : Version := { major := 1, minor := 0, patch := 0 }
    let calls : List Call :=
      [.satisfied "middle" (some { v with minor := 2 }), .frontier "base" safeToRun]
    let primed := ((start workbenchReviews .deny).perform (.prime workbenchDraft.thirdParty 4)).2
    workbench.Acyclic ∧ workbenchDraft.GrowsTo workbench ∧
      ({} : PolicyTable).check .builtin = .ok () ∧ toolPolicies.check .builtin = .ok () ∧
      TellsApart workbenchReviews [] workbenchDraft ∧
      TellsApart workbenchReviews calls workbenchDraft ∧ primed.Knows workbenchDraft ∧
      (∃ r r', Requires .asMet workbenchReviews .deny [] {} workbenchDraft r ∧
        Requires .turning workbenchReviews .deny calls toolPolicies workbench r' ∧
          r.Within workbenchDraft r') ∧
      ∃ r r', primed.propagate {} workbenchDraft = .ok (r, primed) ∧
        primed.propagate toolPolicies workbench = .ok (r', primed) ∧
          r.Within workbenchDraft r' := by
  intro v calls primed
  have hcheck : ({} : PolicyTable).check .builtin = .ok () :=
    PolicyTable.check_eq_ok_iff.2 (by decide +kernel)
  have hcheck' : toolPolicies.check .builtin = .ok () :=
    PolicyTable.check_eq_ok_iff.2 (by decide +kernel)
  have hnew : TellsApart workbenchReviews [] workbenchDraft := by
    unfold TellsApart
    decide +kernel
  have hcalls : TellsApart workbenchReviews calls workbenchDraft := by
    unfold TellsApart
    decide +kernel
  have hknows : primed.Knows workbenchDraft := settled_start.knows_prime
  have hgrows : workbenchDraft.GrowsTo workbench :=
    ⟨fun _ => Iff.rfl, fun _ => rfl, by decide +kernel⟩
  obtain ⟨_, hpasts, hknown⟩ := propagate_mono acyclic_workbench hgrows hcheck hcheck'
    (fun _ _ _ _ => PolicyTable.mem_requiredOf_toolPolicies) workbenchReviews .deny
  exact ⟨acyclic_workbench, hgrows, hcheck, hcheck', hnew, hcalls, hknows,
    hpasts .asMet .turning [] calls hnew hcalls, hknown .asMet primed hknows⟩

/-- A middle package that was reviewed up to its last version from two first ones that differ in a
zero, of which one presumes that its base is deployed and the other one that it is run. -/
def forkedReviews : AuditStore .builtin :=
  let zero : Version := { major := 0, minor := 1, patch := 0 }
  let v : Version := { major := 9, minor := 0, patch := 0 }
  let delta (ident asked : String) : AuditRecord :=
    .delta { package := "middle", start := { zero with pre := [ident] }, target := v
             criteria := .single safeToDeploy
             dependencyCriteria := .ofList [("base", .single asked)] }
  .ofRecords .builtin [delta "1" safeToDeploy, delta "01" safeToRun,
    .grant { package := "middle", criteria := .single safeToDeploy, publisher := "ada"
             versions := ⟨"<1.0.0", [⟨.below, { major := 1, minor := 0, patch := 0 }⟩]⟩ }]

/-- An application that deploys one version of a middle package, and is tested with another one that
needs nothing. -/
def forkDraft : DependencyGraph :=
  let id : String → Nat → PackageId := fun name n => ⟨name, { major := n, minor := 0, patch := 0 }⟩
  { members := [⟨id "app" 1, { id := id "app" 1, firstParty := true }⟩,
      ⟨id "base" 1, { id := id "base" 1 }⟩, ⟨id "middle" 2, { id := id "middle" 2 }⟩,
      ⟨id "middle" 9, { id := id "middle" 9 }⟩]
    edges := [⟨id "app" 1, id "middle" 9, .normal⟩, ⟨id "app" 1, id "middle" 2, .dev⟩,
      ⟨id "middle" 9, id "base" 1, .normal⟩]
    keys_nodup := by decide +kernel
    node_key := by decide +kernel
    edges_distinct := by decide +kernel
    edges_closed := by decide +kernel }

/-- The same with one edge more: the version for tests is built on the base as well. -/
def fork : DependencyGraph :=
  let id : String → Nat → PackageId := fun name n => ⟨name, { major := n, minor := 0, patch := 0 }⟩
  { members := forkDraft.members
    edges := forkDraft.edges ++ [⟨id "middle" 2, id "base" 1, .normal⟩]
    keys_nodup := forkDraft.keys_nodup
    node_key := forkDraft.node_key
    edges_distinct := by decide +kernel
    edges_closed := by decide +kernel }

/-- The edge more has a new session ask for one version more before it looks for the records behind
the version that is deployed, and turns the set of which the first versions are sorted. -/
theorem Session.exists_edge_that_requires_less :
    fork.Acyclic ∧ forkDraft.GrowsTo fork ∧ ({} : PolicyTable).check .builtin = .ok () ∧
      ∃ order r r', Requires order forkedReviews .allow [] {} forkDraft r ∧
        Requires order forkedReviews .allow [] {} fork r' ∧ ¬r.Within forkDraft r' := by
  let base : PackageKey := ⟨"base", { major := 1, minor := 0, patch := 0 }⟩
  refine ⟨DependencyGraph.acyclic_iff.2 (if_pos (by decide +kernel)),
    ⟨fun _ => Iff.rfl, fun _ => rfl, by decide +kernel⟩,
    PolicyTable.check_eq_ok_iff.2 (by decide +kernel), .turning, ?_⟩
  let new := start forkedReviews .allow
  obtain ⟨⟨r, t⟩, hr, hdeploy⟩ : ∃ x, @propagate _ _ .turning new {} forkDraft = .ok x ∧
      decide (safeToDeploy ∈ x.1.of base) = true := exists_ok_of_any (by decide +kernel)
  obtain ⟨⟨r', t'⟩, hr', hrun⟩ : ∃ x, @propagate _ _ .turning new {} fork = .ok x ∧
      decide (safeToDeploy ∉ x.1.of base) = true := exists_ok_of_any (by decide +kernel)
  refine ⟨r, r', ⟨t, hr⟩, ⟨t', hr'⟩, fun hwithin => ?_⟩
  exact of_decide_eq_true hrun (hwithin base (by decide +kernel) _ (of_decide_eq_true hdeploy))

end Vetting
