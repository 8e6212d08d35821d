import Vetting.Fault
import Vetting.Order.Sorting

/-! Resolved dependency graphs. A package keeps the place and the name under which it
was first added; adding it again replaces the rest. Edges join packages of the graph
and are kept once. -/

namespace Vetting

inductive DependencyKind where
  | normal
  | build
  | dev
deriving DecidableEq, Inhabited

namespace DependencyKind

def word : DependencyKind → String
  | normal => "normal"
  | build => "build"
  | dev => "dev"

def parse (text : String) : Except TextFault DependencyKind :=
  match [normal, build, dev].find? fun k => k.word = text with
  | some k => .ok k
  | none => .error (.notChoice .dependencyKind text)

/-- Build and dev dependencies only run where software is made. -/
def isRunTier (k : DependencyKind) : Bool := k != normal

end DependencyKind

/-- A package of a build. First-party packages are trusted and governed by policies. -/
structure PackageNode where
  id : PackageId
  firstParty : Bool := false
deriving DecidableEq, Inhabited

/-- A package of a graph under the name it was first added by. -/
structure Member where
  name : PackageId
  node : PackageNode
deriving DecidableEq, Inhabited

def Member.key (m : Member) : PackageKey := m.name.key

structure Dependency where
  parent : PackageId
  child : PackageId
  kind : DependencyKind
deriving DecidableEq, Inhabited

/-- Whether two dependencies join the same packages in the same way. -/
def Dependency.agrees (d e : Dependency) : Bool :=
  d.parent.key == e.parent.key && d.child.key == e.child.key && d.kind == e.kind

/-- A dependency graph: packages with distinct keys, and edges between them. What is known
of a package may name it with other build metadata than it was added under. -/
structure DependencyGraph where
  members : List Member := []
  edges : List Dependency := []
  keys_nodup : (members.map Member.key).Nodup := by simp
  node_key : ∀ m ∈ members, m.node.id.key = m.key := by simp
  edges_distinct : edges.Pairwise (fun d e => d.agrees e = false) := by simp
  edges_closed : ∀ e ∈ edges, e.parent.key ∈ members.map Member.key ∧
    e.child.key ∈ members.map Member.key := by simp

namespace DependencyGraph

instance : EmptyCollection DependencyGraph := ⟨{}⟩

instance : Inhabited DependencyGraph := ⟨∅⟩

/-- Replace what is known of a package, or add it behind the others. -/
def put (node : PackageNode) : List Member → List Member
  | [] => [⟨node.id, node⟩]
  | m :: ms => if m.key = node.id.key then { m with node } :: ms else m :: put node ms

theorem map_key_put (node : PackageNode) (ms : List Member) :
    (put node ms).map Member.key =
      if node.id.key ∈ ms.map Member.key then ms.map Member.key
      else ms.map Member.key ++ [node.id.key] := by
  induction ms with
  | nil => rfl
  | cons m ms ih =>
    simp only [put]
    split
    · next h => simp [Member.key, ← h]
    · next h =>
      rw [List.map_cons, ih]
      have h' : ¬ node.id.key = m.key := fun e => h e.symm
      by_cases hm : node.id.key ∈ ms.map Member.key
      · simp [hm]
      · simp [hm, h']

theorem mem_map_key_put {node : PackageNode} {ms : List Member} {k : PackageKey} :
    k ∈ (put node ms).map Member.key ↔ k = node.id.key ∨ k ∈ ms.map Member.key := by
  rw [map_key_put]
  split
  · next h => exact ⟨.inr, fun | .inl e => e ▸ h | .inr h => h⟩
  · rw [List.mem_append, List.mem_singleton, or_comm]

theorem node_key_put {node : PackageNode} {ms : List Member}
    (h : ∀ m ∈ ms, m.node.id.key = m.key) : ∀ m ∈ put node ms, m.node.id.key = m.key := by
  induction ms with
  | nil =>
    intro m hm
    rw [List.mem_singleton.1 hm]
    rfl
  | cons n ns ih =>
    have hns : ∀ m ∈ ns, m.node.id.key = m.key := fun m hm => h m (List.mem_cons_of_mem _ hm)
    intro m hm
    simp only [put] at hm
    split at hm
    · next hkey =>
      rcases List.mem_cons.1 hm with rfl | hm
      · exact hkey.symm
      · exact hns m hm
    · rcases List.mem_cons.1 hm with rfl | hm
      · exact h m (List.mem_cons_self ..)
      · exact ih hns m hm

def addPackage (g : DependencyGraph) (node : PackageNode) : DependencyGraph where
  members := put node g.members
  edges := g.edges
  keys_nodup := by
    rw [map_key_put]
    split
    · exact g.keys_nodup
    · next h =>
      refine List.nodup_append.2 ⟨g.keys_nodup, by simp, fun a ha b hb => ?_⟩
      rw [List.mem_singleton.1 hb]
      exact fun e => h (e ▸ ha)
  node_key := node_key_put g.node_key
  edges_distinct := g.edges_distinct
  edges_closed := fun e he =>
    (g.edges_closed e he).imp (fun h => mem_map_key_put.2 (.inr h))
      fun h => mem_map_key_put.2 (.inr h)

def has (g : DependencyGraph) (key : PackageKey) : Bool := decide (key ∈ g.members.map Member.key)

/-- The graph with an edge between two of its packages; one that is there is not added again. -/
def addDependency (g : DependencyGraph) (e : Dependency) : Except Fault DependencyGraph :=
  if hp : e.parent.key ∈ g.members.map Member.key then
    if hc : e.child.key ∈ g.members.map Member.key then
      if h : g.edges.any (fun d => d.agrees e) then .ok g
      else .ok
        { members := g.members
          edges := g.edges ++ [e]
          keys_nodup := g.keys_nodup
          node_key := g.node_key
          edges_distinct := by
            refine List.pairwise_append.2 ⟨g.edges_distinct, List.pairwise_singleton _ _, ?_⟩
            intro d hd e' he'
            rw [List.mem_singleton.1 he']
            simp only [List.any_eq_true, not_exists, not_and, Bool.not_eq_true] at h
            exact h d hd
          edges_closed := fun d hd => by
            rcases List.mem_append.1 hd with hd | hd
            · exact g.edges_closed d hd
            · rw [List.mem_singleton.1 hd]; exact ⟨hp, hc⟩ }
    else .error (.unknownPackage e.child)
  else .error (.unknownPackage e.parent)

variable (g : DependencyGraph)

def size : Nat := g.members.length

def sorted : List Member := sortBy (fun a b => a.name.precedes b.name) g.members

def nodes : List PackageNode := g.sorted.map Member.node

def firstParty : List PackageNode := g.nodes.filter PackageNode.firstParty

/-- The packages that have to be vetted, sorted. -/
def thirdParty : List PackageId := (g.nodes.filter fun n => !n.firstParty).map PackageNode.id

def packages : NameSet := NameSet.ofList (g.members.map fun m => m.name.package)

def find? (key : PackageKey) : Option PackageNode :=
  (g.members.find? fun m => m.key = key).map Member.node

def isFirstParty (key : PackageKey) : Bool :=
  match g.find? key with
  | some n => n.firstParty
  | none => false

def dependencies (key : PackageKey) : List Dependency :=
  g.edges.filter fun e => e.parent.key = key

theorem mem_dependencies {g : DependencyGraph} {key : PackageKey} {e : Dependency} :
    e ∈ g.dependencies key ↔ e ∈ g.edges ∧ e.parent.key = key := by
  simp [dependencies]

def dependents (key : PackageKey) : List Dependency :=
  g.edges.filter fun e => e.child.key = key

theorem mem_dependents {g : DependencyGraph} {key : PackageKey} {e : Dependency} :
    e ∈ g.dependents key ↔ e ∈ g.edges ∧ e.child.key = key := by
  simp [dependents]

end DependencyGraph

end Vetting
