import Vetting.Proofs.AuditChain
import Vetting.Resolution.Session

/-! Resolution means what the records say: a release satisfies a criterion exactly when no
violation denies it and a chain of records vouches for it, and the path shown is a shortest
such chain. One criterion and all criteria at once are answered alike. -/

namespace Vetting

/-- Whether a record is a violation that denies a release something a criterion implies. -/
def AuditRecord.denies (model : CriteriaModel) (package : String) (release : Release)
    (criterion : String) : AuditRecord → Bool
  | violation w => w.package == package && w.versions.contains release &&
      w.criteria.meets (model.closure criterion)
  | _ => false

theorem AuditRecord.denies_of_violation?_eq_none {model : CriteriaModel} {r : AuditRecord}
    (h : r.violation? = none) (package : String) (v : Release) (criterion : String) :
    r.denies model package v criterion = false := by
  cases r with
  | violation w => cases h
  | _ => rfl

namespace AuditStore

variable {model : CriteriaModel} {store : AuditStore model} {mode : ExemptionMode}
  {package criterion c : String} {v : Release} {more : List Version} {id : PackageId}

/-- The blocking violations are the records that deny, in the order of the records. -/
theorem map_violation_blocking :
    (store.blocking package v criterion).map AuditRecord.violation =
      store.accepted.filter (AuditRecord.denies model package v criterion) := by
  simp only [blocking, violationsFor, recordsFor]
  induction store.accepted with
  | nil => rfl
  | cons r rs ih =>
    cases hr : r.violation? with
    | none =>
      have hd : r.denies model package v criterion = false :=
        AuditRecord.denies_of_violation?_eq_none hr package v criterion
      by_cases hp : r.package = package
      · simpa [List.filter_cons, List.filterMap_cons, hp, hr, hd] using ih
      · simpa [List.filter_cons, hp, hd] using ih
    | some w =>
      obtain rfl := AuditRecord.violation?_eq_some_iff.1 hr
      by_cases hp : w.package = package
      · by_cases hd : (w.versions.contains v && w.criteria.meets (model.closure criterion)) = true
        · simpa [List.filter_cons, List.filterMap_cons, AuditRecord.package, AuditRecord.denies,
            hr, hp, hd] using ih
        · simpa [List.filter_cons, List.filterMap_cons, AuditRecord.package, AuditRecord.denies,
            hr, hp, hd] using ih
      · simpa [List.filter_cons, AuditRecord.package, AuditRecord.denies, hp] using ih

theorem blocking_eq_nil_iff :
    store.blocking package v criterion = [] ↔
      ∀ r ∈ store.accepted, r.denies model package v criterion = false := by
  -- Wrapping violations as records loses none of them.
  rw [← List.map_eq_nil_iff (f := AuditRecord.violation), map_violation_blocking,
    List.filter_eq_nil_iff]
  simp

theorem reaches_iff_chain [SetOrder]
    (hv : v ∈ (AuditGraph.known store package more).map Version.toRelease) :
    Graph.reaches ((AuditGraph.build store package more).searchFor model mode criterion)
      (some v) = true ↔ ∃ chain, store.Chain mode package criterion chain v := by
  have hroot : ∀ e ∈ (AuditGraph.build store package more).edgesFor model mode criterion,
      e.target ≠ none := fun e he => AuditGraph.target_ne_root he
  have hreach := Graph.reaches_search_iff (v := some v) hroot
  refine hreach.trans ⟨?_, ?_⟩
  · intro hx
    obtain ⟨_, p, hp⟩ := hx
    rcases AuditGraph.chain_of_walk hp with ⟨_, hnone⟩ | ⟨w, hw, hchain⟩
    · cases hnone
    · obtain rfl := Option.some.inj hw
      exact ⟨_, hchain⟩
  · intro hx
    obtain ⟨chain, hchain⟩ := hx
    obtain ⟨p, _, hp⟩ := AuditGraph.walk_of_chain hchain hv
    exact ⟨by simp, p, hp⟩

/-- The path of a search is a chain, and no chain is shorter. -/
theorem chain_pathTo [SetOrder]
    (hv : v ∈ (AuditGraph.known store package more).map Version.toRelease)
    (hreach : Graph.reaches ((AuditGraph.build store package more).searchFor model mode criterion)
      (some v) = true) :
    store.Chain mode package criterion ((Graph.pathTo
        ((AuditGraph.build store package more).searchFor model mode criterion) (some v)).map
          Graph.Edge.label) v ∧
      ∀ chain, store.Chain mode package criterion chain v →
        (Graph.pathTo ((AuditGraph.build store package more).searchFor model mode criterion)
          (some v)).length ≤ chain.length := by
  have hroot : ∀ e ∈ (AuditGraph.build store package more).edgesFor model mode criterion,
      e.target ≠ none := fun e he => AuditGraph.target_ne_root he
  obtain ⟨hwalk, hmin⟩ := Graph.walk_pathTo_search hroot hreach
  refine ⟨?_, fun chain hchain => ?_⟩
  · rcases AuditGraph.chain_of_walk hwalk with ⟨_, hnone⟩ | ⟨w, hw, hchain⟩
    · cases hnone
    · obtain rfl := Option.some.inj hw
      exact hchain
  · obtain ⟨p, hp, hpwalk⟩ := AuditGraph.walk_of_chain hchain hv
    have hle := hmin p hpwalk
    rwa [← hp, List.length_map]

theorem isSatisfied_resolveIn_iff_chain [SetOrder]
    (hv : v ∈ (AuditGraph.known store package more).map Version.toRelease) :
    (store.resolveIn mode (AuditGraph.build store package more) v criterion).isSatisfied = true ↔
      (∀ r ∈ store.accepted, r.denies model package v criterion = false) ∧
        ∃ chain, store.Chain mode package criterion chain v := by
  rw [isSatisfied_resolveIn_iff, reaches_iff_chain hv, ← blocking_eq_nil_iff]
  rfl

theorem mem_satisfiedIn_iff_chain [SetOrder]
    (hv : v ∈ (AuditGraph.known store package more).map Version.toRelease) :
    c ∈ store.satisfiedIn mode (AuditGraph.build store package more) v ↔ c ∈ model ∧
      (∀ r ∈ store.accepted, r.denies model package v c = false) ∧
        ∃ chain, store.Chain mode package c chain v := by
  rw [mem_satisfiedIn, reaches_iff_chain hv, ← blocking_eq_nil_iff]
  rfl

theorem chain_path_resolveIn [SetOrder]
    (hv : v ∈ (AuditGraph.known store package more).map Version.toRelease)
    (hsat : (store.resolveIn mode (AuditGraph.build store package more) v criterion).isSatisfied =
      true) :
    store.Chain mode package criterion
        (store.resolveIn mode (AuditGraph.build store package more) v criterion).path v ∧
      ∀ chain, store.Chain mode package criterion chain v →
        (store.resolveIn mode (AuditGraph.build store package more) v criterion).path.length ≤
          chain.length := by
  obtain ⟨hblocking, hreach⟩ := isSatisfied_resolveIn_iff store mode |>.1 hsat
  have hpath : (store.resolveIn mode (AuditGraph.build store package more) v criterion).path =
      (Graph.pathTo ((AuditGraph.build store package more).searchFor model mode criterion)
        (some v)).map Graph.Edge.label := by
    simp only [resolveIn, hblocking, hreach, if_true, Resolution.path]
  obtain ⟨hchain, hmin⟩ := chain_pathTo hv hreach
  rw [hpath]
  refine ⟨hchain, fun chain h => ?_⟩
  rw [List.length_map]
  exact hmin chain h

theorem violations_resolveIn {graph : AuditGraph} :
    (store.resolveIn mode graph v criterion).violations =
      store.blocking graph.package v criterion := by
  unfold resolveIn
  split
  · next w ws h =>
    rw [h]
    rfl
  · next h =>
    rw [h]
    dsimp only
    split <;> rfl

theorem mem_known_self [SetOrder] :
    id.version.toRelease ∈
      (AuditGraph.known store id.package [id.version]).map Version.toRelease :=
  AuditGraph.mem_map_known.2 (.inr (List.mem_map_of_mem (List.mem_singleton.2 rfl)))

theorem isSatisfied_resolve_iff_chain [SetOrder] :
    (store.resolve mode id criterion).isSatisfied = true ↔
      (∀ r ∈ store.accepted, r.denies model id.package id.version.toRelease criterion = false) ∧
        ∃ chain, store.Chain mode id.package criterion chain id.version.toRelease :=
  isSatisfied_resolveIn_iff_chain mem_known_self

theorem mem_satisfied_iff_chain [SetOrder] :
    c ∈ store.satisfied mode id ↔ c ∈ model ∧
      (∀ r ∈ store.accepted, r.denies model id.package id.version.toRelease c = false) ∧
        ∃ chain, store.Chain mode id.package c chain id.version.toRelease :=
  mem_satisfiedIn_iff_chain mem_known_self

end AuditStore

/-! Two names of one version, which differ in build metadata only, are answered alike. -/

namespace AuditGraph

variable {model : CriteriaModel} {store : AuditStore model} {package : String}
  {more more' versions versions' : List Version}

theorem edgesOf_congr (h : versions.map Version.toRelease = versions'.map Version.toRelease)
    (r : AuditRecord) : edgesOf versions r = edgesOf versions' r := by
  cases r with
  | grant g =>
    have hmap : ∀ vs : List Version, edgesOf vs (.grant g) =
        ((vs.map Version.toRelease).filter g.versions.contains).map fun v =>
          (⟨none, some v, .grant g⟩ : AuditEdge) := by
      intro vs
      rw [List.filter_map, List.map_map]
      rfl
    rw [hmap, hmap, h]
  | _ => rfl

theorem edges_build_congr [SetOrder]
    (h : more.map Version.toRelease = more'.map Version.toRelease) :
    (build store package more).edges = (build store package more').edges := by
  have hknown : (known store package more).map Version.toRelease =
      (known store package more').map Version.toRelease := by
    rw [known, known, Version.map_toRelease_sortedSet, Version.map_toRelease_sortedSet,
      List.map_append, List.map_append, h]
  exact congrArg (fun f => (store.recordsFor package).flatMap f)
    (funext fun r => edgesOf_congr hknown r)

theorem known_singleton_of_has [SetOrder] {v : Version}
    (h : (build store package []).has v.toRelease = true) :
    known store package [v] = known store package [] := by
  have hmem : v.toRelease ∈ (known store package []).map Version.toRelease := by
    simpa [has, build] using h
  rcases mem_map_known.1 hmem with ⟨r, hr, hv⟩ | hnil
  · have hold : v.toRelease ∈
        ((store.recordsFor package).flatMap AuditRecord.versions).map Version.toRelease := by
      rw [List.map_flatMap]
      exact List.mem_flatMap.2 ⟨r, hr, hv⟩
    rw [known, known, Version.sortedSet_append_singleton hold, List.append_nil]
  · simp at hnil

end AuditGraph

namespace AuditStore

variable {model : CriteriaModel} {store : AuditStore model} {mode : ExemptionMode}
  {a b : PackageId}

theorem resolveIn_congr {graph graph' : AuditGraph} (hp : graph.package = graph'.package)
    (he : graph.edges = graph'.edges) (v : Release) (criterion : String) :
    store.resolveIn mode graph v criterion = store.resolveIn mode graph' v criterion := by
  have hsearch : graph.searchFor model mode criterion = graph'.searchFor model mode criterion := by
    rw [AuditGraph.searchFor, AuditGraph.search, AuditGraph.searchBy, AuditGraph.passing, he]
    rfl
  rw [resolveIn, resolveIn, hp, hsearch]

theorem satisfiedIn_congr {graph graph' : AuditGraph} (hp : graph.package = graph'.package)
    (he : graph.edges = graph'.edges) (v : Release) :
    store.satisfiedIn mode graph v = store.satisfiedIn mode graph' v := by
  ext c
  rw [mem_satisfiedIn, mem_satisfiedIn, ← isSatisfied_resolveIn_iff, ← isSatisfied_resolveIn_iff,
    resolveIn_congr hp he]

theorem resolve_congr_key [SetOrder] (h : a.key = b.key) (criterion : String) :
    store.resolve mode a criterion = store.resolve mode b criterion := by
  have hp : a.package = b.package := congrArg PackageKey.package h
  have hr : a.version.toRelease = b.version.toRelease := congrArg PackageKey.release h
  have he : (AuditGraph.build store b.package [a.version]).edges =
      (AuditGraph.build store b.package [b.version]).edges :=
    AuditGraph.edges_build_congr (by simp [hr])
  have hpackage : (AuditGraph.build store b.package [a.version]).package =
      (AuditGraph.build store b.package [b.version]).package := rfl
  rw [resolve, resolve, hp, hr]
  exact resolveIn_congr hpackage he _ _

end AuditStore

namespace Session

variable {model : CriteriaModel} {store : AuditStore model} {mode : ExemptionMode}
  {id : PackageId}

theorem package_graph [SetOrder] {s : Session store} {package : String} {more : List Version} :
    (s.graph package).package = (AuditGraph.build store package more).package := rfl

/-- The first version that a session is asked about is known to it as to nobody else. -/
theorem edges_graph_grow_start [SetOrder] :
    (((start store mode).grow id.package id.version).graph id.package).edges =
      (AuditGraph.build store id.package [id.version]).edges := by
  unfold grow
  split
  · next h =>
    have hknown := AuditGraph.known_singleton_of_has h
    show (AuditGraph.build store id.package []).edges = _
    rw [AuditGraph.build, AuditGraph.build, hknown]
  · have hasked : ((start store mode).asked.insert id.package
        ((start store mode).askedOf id.package ++ [id.version])).get? id.package =
          some [id.version] := by
      rw [NameMap.get?_insert, if_pos rfl]
      rfl
    rw [graph, askedOf, hasked]
    rfl

theorem mode_grow [SetOrder] {s : Session store} {package : String} {v : Version} :
    (s.grow package v).mode = s.mode := by
  unfold grow
  split
  · rfl
  · rfl

theorem resolve_start [SetOrder] (criterion : String) :
    ((start store mode).resolve id criterion).1 = store.resolve mode id criterion := by
  by_cases hblocking : (store.blocking id.package id.version.toRelease criterion).isEmpty
  · simp only [resolve, hblocking, if_true]
    rw [mode_grow]
    exact AuditStore.resolveIn_congr package_graph edges_graph_grow_start _ _
  · -- A veto is answered before the version is added to the graph.
    simp only [resolve, hblocking, if_false, Bool.false_eq_true]
    obtain ⟨w, ws, hws⟩ : ∃ w ws,
        store.blocking id.package id.version.toRelease criterion = w :: ws := by
      cases h : store.blocking id.package id.version.toRelease criterion with
      | nil => simp [h] at hblocking
      | cons w ws => exact ⟨w, ws, rfl⟩
    simp only [AuditStore.resolve, AuditStore.resolveIn, graph, AuditGraph.build, hws]

theorem satisfied_start [SetOrder] :
    ((start store mode).satisfied id).1 = store.satisfied mode id := by
  show store.satisfiedIn ((start store mode).grow id.package id.version).mode _ _ = _
  rw [mode_grow]
  exact AuditStore.satisfiedIn_congr package_graph edges_graph_grow_start _

end Session

theorem Resolution.path_eq_nil {r : Resolution} (h : r.isSatisfied = false) : r.path = [] := by
  cases r with
  | satisfied p => cases h
  | vetoed vs => rfl
  | unreached => rfl

theorem AuditStore.counts_of_mem_path [SetOrder] {model : CriteriaModel} {store : AuditStore model}
    {mode : ExemptionMode} {id : PackageId} {criterion : String} {r : AuditRecord}
    (hr : r ∈ (store.resolve mode id criterion).path) :
    store.Counts mode id.package criterion r := by
  have hsat : (store.resolve mode id criterion).isSatisfied = true := by
    by_contra hnot
    rw [Resolution.path_eq_nil (Bool.eq_false_iff.2 hnot)] at hr
    cases hr
  have hchain := (chain_path_resolveIn mem_known_self hsat).1
  exact hchain.counts_of_mem hr

/-- What the records of a store make of one criterion at one release: the answer for it alone,
and the names of all criteria that are satisfied there. -/
structure AuditStore.Explains {model : CriteriaModel} (store : AuditStore model)
    (mode : ExemptionMode) (package : String) (v : Release) (criterion : String)
    (answer : Resolution) (names : NameSet) : Prop where
  satisfied_iff : answer.isSatisfied = true ↔
    (∀ r ∈ store.accepted, r.denies model package v criterion = false) ∧
      ∃ chain, store.Chain mode package criterion chain v
  batch_iff : criterion ∈ names ↔ answer.isSatisfied = true
  path_shortest : answer.isSatisfied = true →
    store.Chain mode package criterion answer.path v ∧
      ∀ chain, store.Chain mode package criterion chain v → answer.path.length ≤ chain.length
  path_nil : answer.isSatisfied = false → answer.path = []
  violations_eq : answer.violations.map AuditRecord.violation =
    store.accepted.filter (AuditRecord.denies model package v criterion)

theorem AuditStore.explains_resolve [SetOrder] {model : CriteriaModel} (store : AuditStore model)
    (mode : ExemptionMode) (id : PackageId) {criterion : String} (hc : criterion ∈ model) :
    store.Explains mode id.package id.version.toRelease criterion
      (store.resolve mode id criterion) (store.satisfied mode id) where
  satisfied_iff := isSatisfied_resolve_iff_chain
  batch_iff := by
    rw [mem_satisfied_iff_isSatisfied_resolve]
    exact and_iff_right hc
  path_shortest := chain_path_resolveIn mem_known_self
  path_nil := Resolution.path_eq_nil
  violations_eq := by
    rw [resolve, violations_resolveIn]
    exact map_violation_blocking

namespace Session

variable {model : CriteriaModel}

/-- A session that was asked nothing before answers for a criterion of the model, and its two
answers are what the records say. -/
theorem fresh_session_explains [SetOrder] (store : AuditStore model) (mode : ExemptionMode)
    (package : String) (v : Version) {criterion : String} (hc : criterion ∈ model) :
    ∃ answer names,
      ((start store mode).perform (.resolve package (some v) criterion)).1 =
          .ok (.resolution answer) ∧
        ((start store mode).perform (.satisfied package (some v))).1 = .ok (.names names) ∧
          store.Explains mode package v.toRelease criterion answer names := by
  have hcheck : model.check criterion = .ok () := model.check_eq_ok_iff.2 hc
  refine ⟨store.resolve mode ⟨package, v⟩ criterion, store.satisfied mode ⟨package, v⟩, ?_, ?_,
    store.explains_resolve mode ⟨package, v⟩ hc⟩
  · rw [← resolve_start criterion]
    simp only [perform, concrete, hcheck]
    rfl
  · rw [← satisfied_start]
    rfl

/-- A package that was reviewed, changed, changed back and changed on, and whose later versions
a publisher is trusted with until a violation ends that. -/
def reviewedTwice : AuditStore .builtin :=
  let first : Version := { major := 1, minor := 0, patch := 0 }
  let second : Version := { major := 1, minor := 1, patch := 0 }
  let third : Version := { major := 2, minor := 0, patch := 0 }
  .ofRecords .builtin [
    .delta { package := "pad", start := second, target := first, criteria := .single safeToRun },
    .delta { package := "pad", start := first, target := second, criteria := .single safeToDeploy },
    .delta { package := "pad", start := second, target := third, criteria := .single safeToRun },
    .full { package := "pad", version := first, criteria := .single safeToDeploy },
    .grant { package := "pad", versions := ⟨">=3.0.0", [⟨.atLeast, { third with major := 3 }⟩]⟩,
             criteria := .single safeToRun, publisher := "someone" },
    .violation { package := "pad", versions := ⟨">=4.0.0", [⟨.atLeast, { third with major := 4 }⟩]⟩,
                 criteria := .single safeToRun }]

theorem fresh_session_explains_reviewedTwice :
    safeToRun ∈ CriteriaModel.builtin ∧ ∃ answer names,
      ((start reviewedTwice .deny).perform
          (.resolve "pad" (some { major := 2, minor := 0, patch := 0 }) safeToRun)).1 =
          .ok (.resolution answer) ∧
        ((start reviewedTwice .deny).perform
          (.satisfied "pad" (some { major := 2, minor := 0, patch := 0 }))).1 =
            .ok (.names names) ∧
          reviewedTwice.Explains .deny "pad" { major := 2, minor := 0, patch := 0 } safeToRun
            answer names :=
  have hrun : safeToRun ∈ CriteriaModel.builtin := by decide +kernel
  ⟨hrun, fresh_session_explains reviewedTwice .deny "pad" _ hrun⟩

end Session

end Vetting
