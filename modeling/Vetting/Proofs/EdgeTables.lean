import Vetting.Proofs.BuildMetadata
import Vetting.Proofs.GrowingRequirements
import Mathlib.Logic.Function.Basic

/-! Edges filed twice. A graph may keep its edges under what depends and once more under what is
depended on, and look for an edge under its parent only: whatever is put into it, it answers as the
graph with one list of edges does, and its two tables mirror each other. -/

namespace Vetting

/-- What a dependency joins, and how. -/
def Dependency.key (e : Dependency) : PackageKey × PackageKey × DependencyKind :=
  (e.parent.key, e.child.key, e.kind)

theorem Dependency.agrees_iff_key {d e : Dependency} : d.agrees e = true ↔ d.key = e.key := by
  simp [DependencyGraph.agrees_iff, key]

/-- A dependency graph with every edge filed under its parent and once more under its child. -/
structure EdgeTables where
  members : List Member := []
  outgoing : PackageKey → List Dependency := fun _ => []
  incoming : PackageKey → List Dependency := fun _ => []

/-- Whether two tables of edges between some packages mirror each other. The edges under a package lead
out of it in the one and into it in the other, both hold the same edges, and neither any edge twice. -/
structure Mirrored (keys : List PackageKey) (outgoing incoming : PackageKey → List Dependency) :
    Prop where
  parent_eq : ∀ k, ∀ e ∈ outgoing k, e.parent.key = k
  child_eq : ∀ k, ∀ e ∈ incoming k, e.child.key = k
  known : ∀ k, ∀ e ∈ outgoing k ++ incoming k, e.parent.key ∈ keys ∧ e.child.key ∈ keys
  mem_iff : ∀ e, e ∈ outgoing e.parent.key ↔ e ∈ incoming e.child.key
  key_mem_iff : ∀ e : Dependency, e.key ∈ (outgoing e.parent.key).map Dependency.key ↔
    e.key ∈ (incoming e.child.key).map Dependency.key
  nodup_outgoing : ∀ k, ((outgoing k).map Dependency.key).Nodup
  nodup_incoming : ∀ k, ((incoming k).map Dependency.key).Nodup

namespace EdgeTables

instance : EmptyCollection EdgeTables := ⟨{}⟩

/-- A table with an edge behind those under a key. -/
def file (table : PackageKey → List Dependency) (k : PackageKey) (e : Dependency) :
    PackageKey → List Dependency := Function.update table k (table k ++ [e])

/-- Put something into a graph, which stays as it is when that fails. Whether an edge is there is seen
under its parent only. -/
def insert (t : EdgeTables) : Insertion → Option Fault × EdgeTables
  | .package node => (none, { t with members := DependencyGraph.put node t.members })
  | .dependency e =>
    if e.parent.key ∉ t.members.map Member.key then (some (.unknownPackage e.parent), t)
    else if e.child.key ∉ t.members.map Member.key then (some (.unknownPackage e.child), t)
    else if (t.outgoing e.parent.key).any fun d => d.agrees e then (none, t)
    else (none, { t with
      outgoing := file t.outgoing e.parent.key e
      incoming := file t.incoming e.child.key e })

/-- Put some things into a graph one after the other, and tell of each how it failed. -/
def insertAll (t : EdgeTables) : List Insertion → List (Option Fault) × EdgeTables
  | [] => ([], t)
  | i :: rest =>
    let (fault, t) := t.insert i
    let (faults, t) := t.insertAll rest
    (fault :: faults, t)

/-- Whether tables hold the packages of a graph, and its edges in order under either end. -/
structure Tabulates (t : EdgeTables) (g : DependencyGraph) : Prop where
  members_eq : t.members = g.members
  outgoing_eq : t.outgoing = g.dependencies
  incoming_eq : t.incoming = g.dependents

end EdgeTables

/-- The edges that are put into a graph of some packages, one of them more than once perhaps, in order:
those whose ends were there or were put in before them. -/
def acceptedEdges (known : List PackageKey) : List Insertion → List Dependency
  | [] => []
  | .package node :: rest => acceptedEdges (node.id.key :: known) rest
  | .dependency e :: rest =>
    if e.parent.key ∈ known ∧ e.child.key ∈ known then e :: acceptedEdges known rest
    else acceptedEdges known rest

namespace DependencyGraph

variable {g : DependencyGraph} {known : List PackageKey} {before : List Dependency}

theorem any_agrees_iff {edges : List Dependency} {e : Dependency} :
    (edges.any fun d => d.agrees e) = true ↔ e.key ∈ edges.map Dependency.key := by
  simp [Dependency.agrees_iff_key]

/-- What comes of putting an edge into a graph: one end or the other is not there, or the edge is, or
it comes behind the others. -/
theorem insert_dependency_cases (g : DependencyGraph) (e : Dependency) :
    (e.parent.key ∉ g.members.map Member.key ∧
      g.insert (.dependency e) = (some (.unknownPackage e.parent), g)) ∨
    (e.parent.key ∈ g.members.map Member.key ∧ e.child.key ∉ g.members.map Member.key ∧
      g.insert (.dependency e) = (some (.unknownPackage e.child), g)) ∨
    (e.parent.key ∈ g.members.map Member.key ∧ e.child.key ∈ g.members.map Member.key ∧
      e.key ∈ g.edges.map Dependency.key ∧ g.insert (.dependency e) = (none, g)) ∨
    (e.parent.key ∈ g.members.map Member.key ∧ e.child.key ∈ g.members.map Member.key ∧
      e.key ∉ g.edges.map Dependency.key ∧
        ∃ g', g.insert (.dependency e) = (none, g') ∧ g'.members = g.members ∧
          g'.edges = g.edges ++ [e]) := by
  by_cases hp : e.parent.key ∈ g.members.map Member.key
  · by_cases hc : e.child.key ∈ g.members.map Member.key
    · by_cases he : (g.edges.any fun d => d.agrees e) = true
      · refine .inr (.inr (.inl ⟨hp, hc, any_agrees_iff.1 he, ?_⟩))
        rw [insert, addDependency, dif_pos hp, dif_pos hc, dif_pos he]
      · refine .inr (.inr (.inr ⟨hp, hc, fun h => he (any_agrees_iff.2 h), ?_⟩))
        rw [insert, addDependency, dif_pos hp, dif_pos hc, dif_neg he]
        exact ⟨_, rfl, rfl, rfl⟩
    · refine .inr (.inl ⟨hp, hc, ?_⟩)
      rw [insert, addDependency, dif_pos hp, dif_neg hc]
  · refine .inl ⟨hp, ?_⟩
    rw [insert, addDependency, dif_neg hp]

theorem nodup_map_key_edges (g : DependencyGraph) : (g.edges.map Dependency.key).Nodup := by
  refine List.pairwise_map.2 (g.edges_distinct.imp fun h hkey => ?_)
  rw [Dependency.agrees_iff_key.2 hkey] at h
  cases h

theorem mirrored (g : DependencyGraph) :
    Mirrored (g.members.map Member.key) g.dependencies g.dependents where
  parent_eq _ _ he := (mem_dependencies.1 he).2
  child_eq _ _ he := (mem_dependents.1 he).2
  known k e he := by
    rcases List.mem_append.1 he with he | he
    · exact g.edges_closed e (mem_dependencies.1 he).1
    · exact g.edges_closed e (mem_dependents.1 he).1
  mem_iff e := by rw [mem_dependencies, mem_dependents, eq_self, eq_self]
  key_mem_iff e := by
    simp only [List.mem_map, mem_dependencies, mem_dependents]
    refine exists_congr fun d => and_congr_left fun hkey => and_congr_right fun _ => ?_
    obtain ⟨hparent, hchild, _⟩ := agrees_iff.1 (Dependency.agrees_iff_key.2 hkey)
    exact iff_of_true hparent hchild
  nodup_outgoing _ := g.nodup_map_key_edges.sublist (List.filter_sublist.map _)
  nodup_incoming _ := g.nodup_map_key_edges.sublist (List.filter_sublist.map _)

/-- The edges of a graph are those that were put into it, each as and where it first came. -/
theorem edges_insertAll (steps : List Insertion)
    (hknown : ∀ k, k ∈ known ↔ k ∈ g.members.map Member.key)
    (hedges : g.edges = distinctOn Dependency.key before) :
    (g.insertAll steps).2.edges =
      distinctOn Dependency.key (before ++ acceptedEdges known steps) := by
  induction steps generalizing g known before with
  | nil => simpa [insertAll, acceptedEdges] using hedges
  | cons i rest ih =>
    cases i with
    | package node =>
      refine ih (fun k => ?_) hedges
      rw [List.mem_cons, hknown k]
      exact mem_map_key_put.symm
    | dependency e =>
      have hfresh : e.key ∈ g.edges.map Dependency.key ↔ e.key ∈ before.map Dependency.key := by
        rw [hedges, mem_map_distinctOn]
      have hstep := distinctOn_append_singleton Dependency.key before e
      simp only [insertAll, acceptedEdges, hknown]
      rcases g.insert_dependency_cases e with ⟨hp, hg⟩ | ⟨hp, hc, hg⟩ | ⟨hp, hc, he, hg⟩ |
        ⟨hp, hc, he, g', hg, hmembers, hgrown⟩
      · rw [if_neg fun h => hp h.1, hg]
        exact ih hknown hedges
      · rw [if_neg fun h => hc h.2, hg]
        exact ih hknown hedges
      · rw [if_pos ⟨hp, hc⟩, hg, List.append_cons]
        rw [if_pos (hfresh.1 he)] at hstep
        exact ih hknown (hedges.trans hstep.symm)
      · rw [if_pos ⟨hp, hc⟩, hg, List.append_cons]
        rw [if_neg fun h => he (hfresh.2 h)] at hstep
        refine ih (fun k => ?_) ?_
        · rw [hmembers]
          exact hknown k
        · rw [hgrown, hedges, hstep]

/-- A package that is there keeps its place and its name, and what else is known of it is replaced. -/
theorem put_eq_ite (node : PackageNode) {ms : List Member} (hms : (ms.map Member.key).Nodup) :
    put node ms = if node.id.key ∈ ms.map Member.key then
      ms.map fun m => if m.key = node.id.key then { m with node } else m
      else ms ++ [⟨node.id, node⟩] := by
  induction ms with
  | nil => rfl
  | cons m ms ih =>
    obtain ⟨hm, hms⟩ := List.nodup_cons.1 hms
    by_cases hkey : m.key = node.id.key
    · have hrest : (ms.map fun m => if m.key = node.id.key then { m with node } else m) = ms := by
        refine (List.map_congr_left fun n hn => if_neg fun hnkey => hm ?_).trans (List.map_id ms)
        exact hkey.trans hnkey.symm ▸ List.mem_map_of_mem hn
      simp [put, hkey, hrest]
    · rw [put, if_neg hkey, ih hms]
      by_cases hmem : node.id.key ∈ ms.map Member.key
      · have hmore : node.id.key ∈ (m :: ms).map Member.key := List.mem_cons_of_mem _ hmem
        rw [if_pos hmem, if_pos hmore, List.map_cons, if_neg hkey]
      · have hmore : node.id.key ∉ (m :: ms).map Member.key := by
          simpa [hmem] using fun h => hkey h.symm
        rw [if_neg hmem, if_neg hmore, List.cons_append]

end DependencyGraph

namespace EdgeTables

variable {t : EdgeTables} {g g' : DependencyGraph} {e : Dependency}

/-- An edge is found under its parent if and only if it is there at all. -/
theorem Tabulates.any_agrees_iff (h : t.Tabulates g) :
    ((t.outgoing e.parent.key).any fun d => d.agrees e) = true ↔
      e.key ∈ g.edges.map Dependency.key := by
  rw [h.outgoing_eq, DependencyGraph.any_agrees_iff, List.mem_map, List.mem_map]
  refine exists_congr fun d => and_congr_left fun hkey => ?_
  rw [DependencyGraph.mem_dependencies]
  exact and_iff_left (DependencyGraph.agrees_iff.1 (Dependency.agrees_iff_key.2 hkey)).1

/-- To file an edge behind those of one end is to put it behind all edges. -/
theorem file_filter (f : Dependency → PackageKey) (edges : List Dependency) (e : Dependency) :
    file (fun k => edges.filter fun d => f d = k) (f e) e =
      fun k => (edges ++ [e]).filter fun d => f d = k := by
  funext k
  rw [file, Function.update_apply, List.filter_append]
  by_cases hk : k = f e
  · simp [hk]
  · simp [hk, Ne.symm hk]

theorem Tabulates.file (h : t.Tabulates g) (hmembers : g'.members = g.members)
    (hedges : g'.edges = g.edges ++ [e]) :
    Tabulates ⟨t.members, EdgeTables.file t.outgoing e.parent.key e,
      EdgeTables.file t.incoming e.child.key e⟩ g' where
  members_eq := h.members_eq.trans hmembers.symm
  outgoing_eq := by
    have hall : g'.dependencies = fun k => (g.edges ++ [e]).filter fun d => d.parent.key = k :=
      funext fun _ => congrArg (List.filter _) hedges
    rw [h.outgoing_eq, hall]
    exact file_filter (fun d => d.parent.key) g.edges e
  incoming_eq := by
    have hall : g'.dependents = fun k => (g.edges ++ [e]).filter fun d => d.child.key = k :=
      funext fun _ => congrArg (List.filter _) hedges
    rw [h.incoming_eq, hall]
    exact file_filter (fun d => d.child.key) g.edges e

/-- Tables answer as the graph that they tabulate, and go on to tabulate it. -/
theorem Tabulates.insert (h : t.Tabulates g) (i : Insertion) :
    (t.insert i).1 = (g.insert i).1 ∧ (t.insert i).2.Tabulates (g.insert i).2 := by
  cases i with
  | package node =>
    exact ⟨rfl, congrArg (DependencyGraph.put node) h.members_eq, h.outgoing_eq, h.incoming_eq⟩
  | dependency e =>
    simp only [EdgeTables.insert, h.members_eq]
    rcases g.insert_dependency_cases e with ⟨hp, hg⟩ | ⟨hp, hc, hg⟩ | ⟨hp, hc, he, hg⟩ |
      ⟨hp, hc, he, g', hg, hmembers, hedges⟩
    · rw [if_pos hp, hg]
      exact ⟨rfl, h⟩
    · rw [if_neg (not_not.2 hp), if_pos hc, hg]
      exact ⟨rfl, h⟩
    · rw [if_neg (not_not.2 hp), if_neg (not_not.2 hc), if_pos (h.any_agrees_iff.2 he), hg]
      exact ⟨rfl, h⟩
    · rw [if_neg (not_not.2 hp), if_neg (not_not.2 hc),
        if_neg fun hfound => he (h.any_agrees_iff.1 hfound), hg]
      exact ⟨rfl, h.members_eq ▸ h.file hmembers hedges⟩

theorem Tabulates.insertAll (h : t.Tabulates g) (steps : List Insertion) :
    (t.insertAll steps).1 = (g.insertAll steps).1 ∧
      (t.insertAll steps).2.Tabulates (g.insertAll steps).2 := by
  induction steps generalizing t g with
  | nil => exact ⟨rfl, h⟩
  | cons i rest ih =>
    obtain ⟨hfault, hstep⟩ := h.insert i
    obtain ⟨hfaults, hrest⟩ := ih hstep
    exact ⟨List.cons_eq_cons.2 ⟨hfault, hfaults⟩, hrest⟩

end EdgeTables

namespace DependencyGraph

/-- Whatever is put into an empty graph, whether it fails or not: what leads out of its packages and
what leads into them mirror each other, also where the two are filed apart; what leads out of a
package is what was first put in of it, in that order; a package that is put in again is replaced and
nothing else; and an edge without an end there is refused and leaves all as it was. -/
theorem insertAll_mirrors (steps : List Insertion) :
    let g := ((∅ : DependencyGraph).insertAll steps).2
    let t := ((∅ : EdgeTables).insertAll steps).2
    (((∅ : EdgeTables).insertAll steps).1 = ((∅ : DependencyGraph).insertAll steps).1 ∧
        t.Tabulates g) ∧
      Mirrored (g.members.map Member.key) g.dependencies g.dependents ∧
      (∀ k, g.dependencies k =
        (distinctOn Dependency.key (acceptedEdges [] steps)).filter fun e => e.parent.key = k) ∧
      (∀ node, (g.insert (.package node)).2.members =
          (if node.id.key ∈ g.members.map Member.key then
            g.members.map fun m => if m.key = node.id.key then { m with node } else m
          else g.members ++ [⟨node.id, node⟩]) ∧
        (g.insert (.package node)).2.dependencies = g.dependencies ∧
        (g.insert (.package node)).2.dependents = g.dependents) ∧
      ∀ e, (e.parent.key ∈ g.members.map Member.key ∧ e.child.key ∈ g.members.map Member.key ∧
          (g.insert (.dependency e)).1 = none) ∨
        ∃ id, (id = e.parent ∨ id = e.child) ∧ id.key ∉ g.members.map Member.key ∧
          g.insert (.dependency e) = (some (.unknownPackage id), g) ∧
            t.insert (.dependency e) = (some (.unknownPackage id), t) := by
  intro g t
  have htables : ((∅ : EdgeTables).insertAll steps).1 = ((∅ : DependencyGraph).insertAll steps).1 ∧
      t.Tabulates g := EdgeTables.Tabulates.insertAll ⟨rfl, rfl, rfl⟩ steps
  have hempty : (∅ : DependencyGraph).edges = distinctOn Dependency.key [] := rfl
  have hedges : g.edges = distinctOn Dependency.key (acceptedEdges [] steps) :=
    edges_insertAll steps (fun _ => Iff.rfl) hempty
  refine ⟨htables, g.mirrored, fun k => ?_, fun node => ⟨put_eq_ite node g.keys_nodup, rfl, rfl⟩,
    fun e => ?_⟩
  · rw [dependencies, hedges]
  · rcases g.insert_dependency_cases e with ⟨hp, hg⟩ | ⟨hp, hc, hg⟩ | ⟨hp, hc, _, hg⟩ |
      ⟨hp, hc, _, g', hg, _⟩
    · refine .inr ⟨e.parent, .inl rfl, hp, hg, ?_⟩
      rw [EdgeTables.insert, htables.2.members_eq, if_pos hp]
    · refine .inr ⟨e.child, .inr rfl, hc, hg, ?_⟩
      rw [EdgeTables.insert, htables.2.members_eq, if_neg (not_not.2 hp), if_pos hc]
    · exact .inl ⟨hp, hc, congrArg Prod.fst hg⟩
    · exact .inl ⟨hp, hc, congrArg Prod.fst hg⟩

end DependencyGraph

end Vetting
