import Vetting.Proofs.CheckedResolution
import Vetting.Proofs.GraphGrowth
import Mathlib.Data.List.Induction
import Mathlib.Data.List.Nodup

/-! The tree of a breadth-first search. Each of its edges starts at the root or where an edge in front
of it ended, so that going back from a vertex over the edges that vertices were reached through comes
to the root, and no walk from there to the vertex is shorter. -/

namespace Vetting

namespace Graph

variable {ν τ : Type} {edges tree more path : List (Edge ν τ)} {known queue : List ν} {root v : ν}
  {e : Edge ν τ}

/-- Whether each edge leads from a vertex that is known, or was reached by an edge in front of it,
to one that is neither. -/
def Discovers (known : List ν) : List (Edge ν τ) → Prop
  | [] => True
  | e :: es => e.source ∈ known ∧ e.target ∉ known ∧ Discovers (known ++ [e.target]) es

theorem discovers_append : Discovers known (tree ++ more) ↔
    Discovers known tree ∧ Discovers (known ++ tree.map Edge.target) more := by
  induction tree generalizing known with
  | nil => simp [Discovers]
  | cons e tree ih =>
    simp only [List.cons_append, Discovers, ih, List.map_cons, List.append_assoc,
      List.nil_append, and_assoc]

theorem Discovers.nodup (h : Discovers known tree) (hknown : known.Nodup) :
    (known ++ tree.map Edge.target).Nodup := by
  induction tree generalizing known with
  | nil => simpa using hknown
  | cons e tree ih =>
    obtain ⟨_, hnew, hrest⟩ := h
    have hmore : (known ++ [e.target]).Nodup := by
      simpa [List.nodup_append] using ⟨hknown, fun a ha hae => hnew (hae ▸ ha)⟩
    simpa using ih hrest hmore

/-- Edges out of what is known to different new vertices. -/
theorem discovers_of_pairwise (hsource : ∀ e ∈ tree, e.source ∈ known)
    (htarget : ∀ e ∈ tree, e.target ∉ known)
    (hdistinct : tree.Pairwise fun a b => a.target ≠ b.target) : Discovers known tree := by
  induction tree generalizing known with
  | nil => trivial
  | cons e tree ih =>
    obtain ⟨hfirst, hrest⟩ := List.pairwise_cons.1 hdistinct
    refine ⟨hsource e (List.mem_cons_self ..), htarget e (List.mem_cons_self ..), ih ?_ ?_ hrest⟩
    · intro f hf
      exact List.mem_append_left _ (hsource f (List.mem_cons_of_mem _ hf))
    · intro f hf hmem
      rcases List.mem_append.1 hmem with hold | hnew
      · exact htarget f (List.mem_cons_of_mem _ hf) hold
      · exact hfirst f hf (List.mem_singleton.1 hnew).symm

variable [DecidableEq ν]

theorem discovers_explore (hahead : ∀ e ∈ edges, e.target ∉ known)
    (hqueue : ∀ u ∈ queue, u ∈ known) : Discovers known (explore edges queue) := by
  fun_induction explore edges queue generalizing known with
  | case1 => trivial
  | case2 edges v queue found =>
    rename_i ih
    have hfound : Discovers known found := by
      refine discovers_of_pairwise ?_ ?_ (pairwise_distinctOn _ _)
      · intro e he
        rw [(mem_firstPerTarget he).2]
        exact hqueue v (List.mem_cons_self ..)
      · intro e he
        exact hahead e (mem_firstPerTarget he).1
    refine discovers_append.2 ⟨hfound, ih ?_ ?_⟩
    · intro e he hmem
      obtain ⟨he, hnot⟩ := mem_avoiding.1 he
      rcases List.mem_append.1 hmem with hold | hnew
      · exact hahead e he hold
      · exact hnot hnew
    · intro u hu
      rcases List.mem_append.1 hu with hu | hu
      · exact List.mem_append_left _ (hqueue u (List.mem_cons_of_mem _ hu))
      · exact List.mem_append_right _ hu

theorem discovers_search : Discovers [root] (search edges root) := by
  refine discovers_explore ?_ fun u hu => hu
  intro e he hmem
  have hne : e.target ≠ root := of_decide_eq_true (List.mem_filter.1 he).2
  exact hne (List.mem_singleton.1 hmem)

/-- The edge that a search reached a vertex through. -/
def reachedThrough? (tree : List (Edge ν τ)) (v : ν) : Option (Edge ν τ) :=
  tree.find? fun e => e.target = v

/-- Whether one comes to the root over some edges when, from a vertex on, one goes back over the edge
that the vertex was reached through, and so on from the source of that edge. -/
inductive Retraces (tree : List (Edge ν τ)) (root : ν) : ν → List (Edge ν τ) → Prop
  | root : Retraces tree root root []
  | step {v : ν} {e : Edge ν τ} {path : List (Edge ν τ)}
      (reached : reachedThrough? tree v = some e) (before : Retraces tree root e.source path) :
      Retraces tree root v (path ++ [e])

/-- What is reached later changes nothing of the way back. -/
theorem Retraces.append (h : Retraces tree root v path) : Retraces (tree ++ more) root v path := by
  induction h with
  | root => exact .root
  | @step v e path reached _ ih =>
    have hlater : reachedThrough? (tree ++ more) v = some e := by
      rw [reachedThrough?, List.find?_append, ← reachedThrough?, reached, Option.some_or]
    exact .step hlater ih

theorem pathTo_append_singleton : pathTo (tree ++ [e]) v =
    if e.target = v then pathTo tree e.source ++ [e] else pathTo tree v := by
  rw [pathTo, List.reverse_append, List.reverse_singleton, List.singleton_append, pathBack]
  split
  · rw [List.reverse_cons, ← pathTo]
  · rw [← pathTo]

theorem pathBack_sublist (l : List (Edge ν τ)) (v : ν) : (pathBack l v).Sublist l := by
  induction l generalizing v with
  | nil => exact .slnil
  | cons e l ih =>
    rw [pathBack]
    split
    · exact (ih e.source).cons_cons e
    · exact (ih v).cons e

theorem pathTo_sublist (tree : List (Edge ν τ)) (v : ν) : (pathTo tree v).Sublist tree := by
  simpa [pathTo] using (pathBack_sublist tree.reverse v).reverse

/-- The way back from any vertex that was reached ends at the root, having taken the path to it. -/
theorem Discovers.retraces (h : Discovers [root] tree) (hv : v ∈ root :: tree.map Edge.target) :
    Retraces tree root v (pathTo tree v) := by
  induction tree using List.reverseRecOn generalizing v with
  | nil =>
    obtain rfl := List.mem_singleton.1 hv
    exact .root
  | append_singleton tree e ih =>
    obtain ⟨htree, hsource, hnew, _⟩ := discovers_append.1 h
    rw [List.singleton_append] at hsource hnew
    rw [pathTo_append_singleton]
    split
    · next he =>
      subst he
      have hreached : reachedThrough? (tree ++ [e]) e.target = some e := by
        have hnone : reachedThrough? tree e.target = none := by
          refine List.find?_eq_none.2 fun f hf hfe => hnew (List.mem_cons_of_mem _ ?_)
          exact of_decide_eq_true hfe ▸ List.mem_map_of_mem hf
        rw [reachedThrough?, List.find?_append, ← reachedThrough?, hnone]
        simp
      exact .step hreached (ih htree hsource).append
    · next he =>
      refine (ih htree ?_).append
      have hmem : v ∈ (root :: tree.map Edge.target) ++ [e.target] := by simpa using hv
      exact (List.mem_append.1 hmem).resolve_right fun hlast => he (List.mem_singleton.1 hlast).symm

/-- Whether edges, in order, are a tree of shortest paths from a root over some edges. They are some of
these, they reach exactly what walks lead to, each goes on from what was reached in front of it, and
back over them every vertex comes to the root, by a shortest walk that meets no vertex twice. -/
structure ShortestPathTree (edges : List (Edge ν τ)) (root : ν) (tree : List (Edge ν τ)) :
    Prop where
  reached_iff : ∀ v, v ∈ root :: tree.map Edge.target ↔ ∃ p, Walk edges root p v
  admissible : ∀ e ∈ tree, e ∈ edges
  discovers : Discovers [root] tree
  retraces : ∀ v ∈ root :: tree.map Edge.target, Retraces tree root v (pathTo tree v)
  walk : ∀ v ∈ root :: tree.map Edge.target, Walk edges root (pathTo tree v) v
  simple : ∀ v ∈ root :: tree.map Edge.target, (root :: (pathTo tree v).map Edge.target).Nodup
  shortest : ∀ v p, Walk edges root p v → (pathTo tree v).length ≤ p.length
  eq_nil_iff : ∀ v ∈ root :: tree.map Edge.target, pathTo tree v = [] ↔ v = root

theorem pathTo_of_not_mem (hv : v ∉ tree.map Edge.target) : pathTo tree v = [] := by
  rw [pathTo, pathBack_of_not_mem (by simpa using hv), List.reverse_nil]

theorem shortestPathTree_search (hroot : ∀ e ∈ edges, e.target ≠ root) :
    ShortestPathTree edges root (search edges root) := by
  have hdiscovers : Discovers [root] (search edges root) := discovers_search
  have hnodup : (root :: (search edges root).map Edge.target).Nodup :=
    hdiscovers.nodup (List.nodup_singleton root)
  have hroot_nil : pathTo (search edges root) root = [] :=
    pathTo_of_not_mem (List.nodup_cons.1 hnodup).1
  have hreached : ∀ v, v ∈ root :: (search edges root).map Edge.target ↔
      ∃ p, Walk edges root p v := by
    intro v
    have hiff : v ∈ (search edges root).map Edge.target ↔ v ≠ root ∧ ∃ p, Walk edges root p v :=
      reaches_iff.symm.trans (reaches_search_iff hroot)
    rw [List.mem_cons, hiff]
    by_cases hv : v = root
    · subst hv
      simpa using ⟨[], Walk.nil⟩
    · simp [hv]
  have hwalk : ∀ v ∈ root :: (search edges root).map Edge.target,
      Walk edges root (pathTo (search edges root) v) v ∧
        ∀ p, Walk edges root p v → (pathTo (search edges root) v).length ≤ p.length := by
    intro v hv
    rcases List.mem_cons.1 hv with rfl | hv
    · rw [hroot_nil]
      exact ⟨.nil, fun p _ => Nat.zero_le _⟩
    · exact walk_pathTo_search hroot (reaches_iff.2 hv)
  refine ⟨hreached, ?_, hdiscovers, fun v hv => hdiscovers.retraces hv, fun v hv => (hwalk v hv).1,
    ?_, ?_, ?_⟩
  · intro e he
    exact (List.mem_filter.1 (mem_of_mem_explore he)).1
  · intro v _
    exact hnodup.sublist (((pathTo_sublist _ v).map Edge.target).cons_cons root)
  · intro v p hp
    exact (hwalk v ((hreached v).2 ⟨p, hp⟩)).2 p hp
  · intro v hv
    constructor
    · intro hnil
      have hempty := (hwalk v hv).1
      rw [hnil] at hempty
      exact hempty.eq_of_nil
    · rintro rfl
      exact hroot_nil

end Graph

namespace AuditGraph

variable {model : CriteriaModel} {store : AuditStore model} {package : String}
  {more : List Version} {v : AuditVertex} {i : Nat} {e : AuditEdge}

theorem nodup_vertices [SetOrder] : (build store package more).vertices.Nodup := by
  have hknown : ((known store package more).map Version.toRelease).Nodup := nodup_known
  have hsome : (((known store package more).map Version.toRelease).map some).Nodup :=
    hknown.map fun _ _ => Option.some.inj
  rw [List.map_map] at hsome
  exact List.nodup_cons.2 ⟨by simp, hsome⟩

/-- A vertex stands at its index and at no other place. -/
theorem indexOf?_eq_some_iff [SetOrder] : (build store package more).indexOf? v = some i ↔
    (build store package more).vertices[i]? = some v := by
  rw [indexOf?, List.idxOf?_eq_some_iff, List.getElem?_eq_some_iff]
  refine exists_congr fun hi => and_iff_left_of_imp fun hv j hj hj' => ?_
  exact Nat.ne_of_lt hj (nodup_vertices.getElem_inj_iff.1 (hj'.trans hv.symm))

theorem target_mem_vertices [SetOrder] (he : e ∈ (build store package more).edges) :
    e.target ∈ (build store package more).vertices := by
  obtain ⟨v, hv, htarget⟩ := target_mem_known he
  obtain ⟨w, hw, rfl⟩ := List.mem_map.1 hv
  rw [htarget]
  exact List.mem_cons_of_mem _ (List.mem_map.2 ⟨w, hw, rfl⟩)

/-- What a walk from the root leads to is a vertex and has an index. -/
theorem exists_indexOf?_of_walk [SetOrder] {labels : NameSet} {passes : AuditEdge → Bool}
    {p : List AuditEdge}
    (h : Graph.Walk ((build store package more).passing labels passes) none p v) :
    ∃ i, (build store package more).indexOf? v = some i := by
  have hv : v ∈ (build store package more).vertices := by
    rcases h.cases_end with ⟨_, rfl⟩ | ⟨_, e, _, rfl, he, _⟩
    · exact List.mem_cons_self ..
    · exact target_mem_vertices (List.mem_filter.1 he).1
  exact Option.isSome_iff_exists.1 (List.isSome_idxOf?.2 hv)

/-- However a package was reviewed, whatever labels are searched for and whichever edges pass: a search
of the audit graph finds the vertices at just those indexes that the root leads to, in a tree of
shortest paths. -/
theorem searchBy_finds_shortest_paths [SetOrder] (store : AuditStore model) (package : String)
    (more : List Version) (labels : NameSet) (passes : AuditEdge → Bool) :
    let g := build store package more
    Graph.ShortestPathTree (g.passing labels passes) none (g.searchBy labels passes) ∧
      (∀ v i, g.indexOf? v = some i ↔ g.vertices[i]? = some v) ∧
      ∀ v, v ∈ none :: (g.searchBy labels passes).map Graph.Edge.target ↔
        ∃ i p, g.indexOf? v = some i ∧ Graph.Walk (g.passing labels passes) none p v := by
  intro g
  have hroot : ∀ e ∈ g.passing labels passes, e.target ≠ none := by
    intro e he
    obtain ⟨w, _, htarget⟩ := target_mem_known (List.mem_filter.1 he).1
    simp [htarget]
  have htree := Graph.shortestPathTree_search hroot
  refine ⟨htree, fun _ _ => indexOf?_eq_some_iff, fun v => (htree.reached_iff v).trans ?_⟩
  constructor
  · rintro ⟨p, hp⟩
    obtain ⟨i, hi⟩ := exists_indexOf?_of_walk hp
    exact ⟨i, p, hi, hp⟩
  · rintro ⟨_, p, _, hp⟩
    exact ⟨p, hp⟩

end AuditGraph

end Vetting
