import Vetting.Proofs.Obligation

/-! Resolution with every look-up made: of a criterion in its model, of a version in the audit
graph, of a vertex in the tree of a search. For a criterion of the model none of them fails, so
that it answers as resolution does without them. -/

namespace Vetting

theorem mapM_eq_ok_map {ε α β : Type} {f : α → Except ε β} {g : α → β} {l : List α}
    (h : ∀ a ∈ l, f a = .ok (g a)) : l.mapM f = .ok (l.map g) := by
  induction l with
  | nil => rfl
  | cons a as ih =>
    obtain ⟨ha, has⟩ := List.forall_mem_cons.1 h
    rw [List.mapM_cons, ha, ih has]
    rfl

namespace CriteriaModel

variable (m : CriteriaModel) {c : String} {s : NameSet}

def closureChecked (name : String) : Except Fault NameSet := do
  liftCriteria (m.check name)
  pure (m.closure name)

def satisfiersChecked (name : String) : Except Fault NameSet := do
  liftCriteria (m.check name)
  pure (m.satisfiers name)

def expandChecked (s : NameSet) : Except Fault NameSet := do
  let closures ← s.toList.mapM m.closureChecked
  pure (.unions closures)

def downgradeChecked (s : NameSet) : Except Fault NameSet := do
  let names ← s.toList.mapM fun c => do
    let implied ← m.closureChecked c
    pure (if safeToRun ∈ implied then safeToRun else c)
  pure (.ofList names)

variable {m}

theorem closureChecked_eq (hc : c ∈ m) : m.closureChecked c = .ok (m.closure c) := by
  have hcheck : m.check c = .ok () := m.check_eq_ok_iff.2 hc
  rw [closureChecked, hcheck]
  rfl

theorem satisfiersChecked_eq (hc : c ∈ m) : m.satisfiersChecked c = .ok (m.satisfiers c) := by
  have hcheck : m.check c = .ok () := m.check_eq_ok_iff.2 hc
  rw [satisfiersChecked, hcheck]
  rfl

theorem expandChecked_eq (hs : ∀ c ∈ s, c ∈ m) : m.expandChecked s = .ok (m.expand s) := by
  have hclosures : s.toList.mapM m.closureChecked = .ok (s.toList.map m.closure) :=
    mapM_eq_ok_map fun c hc => closureChecked_eq (hs c hc)
  rw [expandChecked, hclosures]
  rfl

theorem downgradeChecked_eq (hs : ∀ c ∈ s, c ∈ m) :
    m.downgradeChecked s = .ok (m.downgrade s) := by
  have hnames : (s.toList.mapM fun c => do
      let implied ← m.closureChecked c
      pure (if safeToRun ∈ implied then safeToRun else c)) =
        .ok (s.toList.map fun c => if m.implies c safeToRun then safeToRun else c) := by
    apply mapM_eq_ok_map
    intro c hc
    rw [closureChecked_eq (hs c hc), implies]
    simp only [decide_eq_true_eq]
    rfl
  rw [downgradeChecked, hnames]
  rfl

end CriteriaModel

namespace Graph

variable {ν τ : Type} [DecidableEq ν] {look : ν → Except Fault Unit} {edges tree : List (Edge ν τ)}
  {queue : List ν} {root v : ν}

/-- Explore as `explore` does, looking up every vertex that is taken off the queue. -/
def exploreChecked (look : ν → Except Fault Unit) (edges : List (Edge ν τ)) :
    List ν → Except Fault (List (Edge ν τ))
  | [] => .ok []
  | v :: queue => do
    look v
    let found := firstPerTarget edges v
    let rest ← exploreChecked look (avoiding edges found) (queue ++ found.map Edge.target)
    pure (found ++ rest)
termination_by queue => edges.length + queue.length
decreasing_by
  have := length_avoiding_firstPerTarget edges v
  simp only [List.length_append, List.length_map, List.length_cons]
  omega

theorem exploreChecked_eq (hqueue : ∀ v ∈ queue, look v = .ok ())
    (htarget : ∀ e ∈ edges, look e.target = .ok ()) :
    exploreChecked look edges queue = .ok (explore edges queue) := by
  fun_induction explore edges queue with
  | case1 edges => rw [exploreChecked]
  | case2 edges v queue found ih =>
    obtain ⟨hv, hrest⟩ := List.forall_mem_cons.1 hqueue
    -- Only targets of edges are queued, and the edges that are left are some of those before.
    have hqueue' : ∀ w ∈ queue ++ found.map Edge.target, look w = .ok () := by
      intro w hw
      rcases List.mem_append.1 hw with hw | hw
      · exact hrest w hw
      · obtain ⟨e, he, rfl⟩ := List.mem_map.1 hw
        exact htarget e (mem_firstPerTarget he).1
    have htarget' : ∀ e ∈ avoiding edges found, look e.target = .ok () :=
      fun e he => htarget e (mem_avoiding.1 he).1
    rw [exploreChecked, hv, ok_bind]
    show (exploreChecked look (avoiding edges found) (queue ++ found.map Edge.target) >>=
      fun rest => .ok (found ++ rest)) = _
    rw [ih hqueue' htarget', ok_bind]

/-- Read a path off a search, looking up where each of its edges starts. -/
def pathBackChecked (root : ν) : List (Edge ν τ) → ν → Except Fault (List (Edge ν τ))
  | [], v => if v = root then .ok [] else .error .illShaped
  | e :: earlier, v =>
    if e.target = v then do
      let before ← pathBackChecked root earlier e.source
      pure (e :: before)
    else pathBackChecked root earlier v

omit [DecidableEq ν] in
theorem Walk.of_snoc {p : List (Edge ν τ)} {e : Edge ν τ} (h : Walk edges root (p ++ [e]) v) :
    Walk edges root p e.source := by
  rcases h.cases_end with ⟨hnil, _⟩ | ⟨q, f, heq, _, _, hbefore⟩
  · exact absurd hnil (by simp)
  · obtain ⟨rfl, hlast⟩ := List.append_inj' heq rfl
    cases hlast
    exact hbefore

theorem pathBackChecked_eq (h : Walk edges root (pathBack tree v).reverse v) :
    pathBackChecked root tree v = .ok (pathBack tree v) := by
  induction tree generalizing v with
  | nil => exact if_pos h.eq_of_nil
  | cons e earlier ih =>
    unfold pathBack at h
    unfold pathBackChecked pathBack
    by_cases he : e.target = v
    · rw [if_pos he, List.reverse_cons] at h
      rw [if_pos he, if_pos he, ih h.of_snoc]
      rfl
    · rw [if_neg he] at h
      rw [if_neg he, if_neg he, ih h]

end Graph

namespace AuditGraph

variable {model : CriteriaModel} {store : AuditStore model} {mode : ExemptionMode}
  {package c : String} {more : List Version} {v : Release} {graph : AuditGraph}

/-- Look up the place of a vertex. -/
def lookUp (graph : AuditGraph) (v : AuditVertex) : Except Fault Unit :=
  if (graph.indexOf? v).isSome then .ok () else .error .illShaped

def buildChecked [SetOrder] (store : AuditStore model) (package : String) (more : List Version) :
    Except Fault AuditGraph := do
  let graph := build store package more
  (store.recordsFor package).forM fun r => r.versions.forM fun v => graph.lookUp (some v.toRelease)
  pure graph

def searchChecked (graph : AuditGraph) (model : CriteriaModel) (mode : ExemptionMode)
    (criterion : String) : Except Fault (List AuditEdge) := do
  let labels ← model.satisfiersChecked criterion
  let edges := graph.edges.filter fun e => e.label.criteria.meets labels && mode.admits e.label
  Graph.exploreChecked graph.lookUp (edges.filter fun e => e.target ≠ none) [none]

theorem lookUp_eq_ok [SetOrder] (h : v ∈ (known store package more).map Version.toRelease) :
    (build store package more).lookUp (some v) = .ok () := by
  have hvertex : some v ∈ (build store package more).vertices := by
    obtain ⟨w, hw, rfl⟩ := List.mem_map.1 h
    exact List.mem_cons_of_mem _ (List.mem_map.2 ⟨w, hw, rfl⟩)
  exact if_pos (List.isSome_idxOf?.2 hvertex)

theorem lookUp_root : graph.lookUp none = .ok () :=
  if_pos (List.isSome_idxOf?.2 (List.mem_cons_self ..))

theorem buildChecked_eq [SetOrder] :
    buildChecked store package more = .ok (build store package more) := by
  have hnamed : (store.recordsFor package).forM (fun r => r.versions.forM fun v =>
      (build store package more).lookUp (some v.toRelease)) = .ok () := by
    apply forM_eq_ok_iff.2
    intro r hr
    apply forM_eq_ok_iff.2
    intro v hv
    exact lookUp_eq_ok (mem_map_known.2 (.inl ⟨r, hr, List.mem_map_of_mem hv⟩))
  rw [buildChecked, hnamed]
  rfl

/-- An edge leads to a release that its record names, unless it stands for a grant. -/
theorem target_of_mem_edgesOf {versions : List Version} {r : AuditRecord} {e : AuditEdge}
    (he : e ∈ edgesOf versions r) : ∃ v, e.target = some v ∧
      (v ∈ r.versions.map Version.toRelease ∨ v ∈ versions.map Version.toRelease) := by
  cases r with
  | full a =>
    obtain rfl := List.mem_singleton.1 he
    exact ⟨_, rfl, .inl (List.mem_cons_self ..)⟩
  | delta a =>
    obtain rfl := List.mem_singleton.1 he
    exact ⟨_, rfl, .inl (List.mem_cons_of_mem _ (List.mem_cons_self ..))⟩
  | exemption x =>
    obtain rfl := List.mem_singleton.1 he
    exact ⟨_, rfl, .inl (List.mem_cons_self ..)⟩
  | grant g =>
    obtain ⟨v, hv, rfl⟩ := List.mem_map.1 he
    exact ⟨_, rfl, .inr (List.mem_map_of_mem (List.mem_filter.1 hv).1)⟩
  | violation w => cases he

theorem target_mem_known [SetOrder] {e : AuditEdge} (he : e ∈ (build store package more).edges) :
    ∃ v ∈ (known store package more).map Version.toRelease, e.target = some v := by
  obtain ⟨r, hr, her⟩ := List.mem_flatMap.1 he
  obtain ⟨v, htarget, hnamed | hknown⟩ := target_of_mem_edgesOf her
  · exact ⟨v, mem_map_known.2 (.inl ⟨r, hr, hnamed⟩), htarget⟩
  · exact ⟨v, hknown, htarget⟩

theorem searchChecked_eq [SetOrder] (hc : c ∈ model) :
    (build store package more).searchChecked model mode c =
      .ok ((build store package more).searchFor model mode c) := by
  have htarget : ∀ e ∈ (build store package more).edges,
      (build store package more).lookUp e.target = .ok () := by
    intro e he
    obtain ⟨v, hv, htarget⟩ := target_mem_known he
    rw [htarget]
    exact lookUp_eq_ok hv
  rw [searchChecked, CriteriaModel.satisfiersChecked_eq hc]
  apply Graph.exploreChecked_eq
  · exact List.forall_mem_singleton.2 lookUp_root
  · intro e he
    exact htarget e (List.mem_filter.1 (List.mem_filter.1 he).1).1

end AuditGraph

/-- Keep the names of a set that pass a test, which may fail. -/
def NameSet.filterChecked (s : NameSet) (test : String → Except Fault Bool) :
    Except Fault NameSet := do
  let kept ← s.toList.mapM fun c => do
    let keep ← test c
    pure (if keep then [c] else [])
  pure (.ofList kept.flatten)

theorem NameSet.filterChecked_eq {s : NameSet} {test : String → Except Fault Bool}
    {p : String → Bool} (h : ∀ c ∈ s, test c = .ok (p c)) :
    s.filterChecked test = .ok (s.filter p) := by
  have hkept : (s.toList.mapM fun c => do
      let keep ← test c
      pure (if keep then [c] else [])) = .ok (s.toList.map fun c => if p c then [c] else []) := by
    apply mapM_eq_ok_map
    intro c hc
    rw [h c hc]
    rfl
  have hfilter : NameSet.ofList (s.toList.map fun c => if p c then [c] else []).flatten =
      s.filter p := by
    ext c
    simp
  rw [filterChecked, hkept, ← hfilter]
  rfl

namespace AuditStore

variable {model : CriteriaModel} (store : AuditStore model) (mode : ExemptionMode)

def blockingChecked (package : String) (release : Release) (criterion : String) :
    Except Fault (List Violation) := do
  let implied ← model.closureChecked criterion
  pure ((store.violationsFor package).filter fun w =>
    w.versions.contains release && w.criteria.meets implied)

def resolveChecked [SetOrder] (id : PackageId) (criterion : String) : Except Fault Resolution := do
  match ← store.blockingChecked id.package id.version.toRelease criterion with
  | w :: ws => pure (.vetoed (w :: ws))
  | [] =>
    let graph ← AuditGraph.buildChecked store id.package [id.version]
    let tree ← graph.searchChecked model mode criterion
    graph.lookUp (some id.version.toRelease)
    if Graph.reaches tree (some id.version.toRelease) then do
      let path ← Graph.pathBackChecked none tree.reverse (some id.version.toRelease)
      pure (.satisfied (path.reverse.map Graph.Edge.label))
    else pure .unreached

def satisfiedChecked [SetOrder] (id : PackageId) : Except Fault NameSet := do
  let graph ← AuditGraph.buildChecked store id.package [id.version]
  graph.lookUp (some id.version.toRelease)
  model.names.filterChecked fun c => do
    let blocking ← store.blockingChecked id.package id.version.toRelease c
    if blocking.isEmpty then do
      let tree ← graph.searchChecked model mode c
      pure (Graph.reaches tree (some id.version.toRelease))
    else pure false

variable {store mode} {id : PackageId} {package c : String} {v : Release}

theorem blockingChecked_eq (hc : c ∈ model) :
    store.blockingChecked package v c = .ok (store.blocking package v c) := by
  rw [blockingChecked, CriteriaModel.closureChecked_eq hc]
  rfl

/-- For a criterion of the model no look-up fails on the way to its resolution. -/
theorem resolveChecked_eq [SetOrder] (hc : c ∈ model) :
    store.resolveChecked mode id c = .ok (store.resolve mode id c) := by
  have htree : (AuditGraph.build store id.package [id.version]).searchChecked model mode c =
      .ok ((AuditGraph.build store id.package [id.version]).searchFor model mode c) :=
    AuditGraph.searchChecked_eq hc
  have hversion : (AuditGraph.build store id.package [id.version]).lookUp
      (some id.version.toRelease) = .ok () := AuditGraph.lookUp_eq_ok mem_known_self
  have hpackage : (AuditGraph.build store id.package [id.version]).package = id.package := rfl
  rw [resolveChecked, blockingChecked_eq hc, resolve, resolveIn, hpackage, ok_bind]
  cases store.blocking id.package id.version.toRelease c with
  | cons w ws => rfl
  | nil =>
    simp only [AuditGraph.buildChecked_eq, htree, hversion, ok_bind]
    split
    · next hreach =>
      have hroot : ∀ e ∈ (AuditGraph.build store id.package [id.version]).edgesFor model mode c,
          e.target ≠ none := fun e he => AuditGraph.target_ne_root he
      have hpath : Graph.pathBackChecked none
          ((AuditGraph.build store id.package [id.version]).searchFor model mode c).reverse
            (some id.version.toRelease) = .ok _ :=
        Graph.pathBackChecked_eq (Graph.walk_pathTo_search hroot hreach).1
      rw [hpath]
      rfl
    · rfl

theorem satisfiedChecked_eq [SetOrder] :
    store.satisfiedChecked mode id = .ok (store.satisfied mode id) := by
  have hversion : (AuditGraph.build store id.package [id.version]).lookUp
      (some id.version.toRelease) = .ok () := AuditGraph.lookUp_eq_ok mem_known_self
  rw [satisfiedChecked, AuditGraph.buildChecked_eq, ok_bind, hversion, ok_bind, satisfied,
    satisfiedIn]
  apply NameSet.filterChecked_eq
  intro c hc
  rw [blockingChecked_eq hc, ok_bind]
  cases hblocking : (store.blocking id.package id.version.toRelease c).isEmpty with
  | true =>
    rw [if_pos rfl, AuditGraph.searchChecked_eq hc]
    show _ = Except.ok ((store.blocking id.package id.version.toRelease c).isEmpty && _)
    rw [hblocking]
    rfl
  | false =>
    show _ = Except.ok ((store.blocking id.package id.version.toRelease c).isEmpty && _)
    rw [hblocking]
    rfl

end AuditStore

end Vetting
