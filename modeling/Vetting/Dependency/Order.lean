import Vetting.Dependency.Graph
import Vetting.Graph.Cycle

/-! Dependents-first order of a dependency graph. Every package comes after all that
depend on it; only a graph with a cycle has no such order. -/

namespace Vetting.DependencyGraph

/-- The children that wait for no edge of the rest, as their last edge names them. -/
def freed (mine rest : List Dependency) : List PackageId :=
  (distinctOn PackageId.key (mine.reverse.map Dependency.child)).reverse.filter fun c =>
    !rest.any fun e => e.child.key = c.key

theorem length_freed_le (mine rest : List Dependency) : (freed mine rest).length ≤ mine.length := by
  have h := length_distinctOn_le PackageId.key (mine.reverse.map Dependency.child)
  have hf := List.length_filter_le (fun c : PackageId => !rest.any fun e => e.child.key = c.key)
    (distinctOn PackageId.key (mine.reverse.map Dependency.child)).reverse
  simp only [List.length_reverse, List.length_map] at h hf
  exact Nat.le_trans hf h

def leaving (edges : List Dependency) (v : PackageKey) : List Dependency :=
  edges.filter fun e => e.parent.key = v

def staying (edges : List Dependency) (v : PackageKey) : List Dependency :=
  edges.filter fun e => ¬e.parent.key = v

theorem length_leaving_add_staying (edges : List Dependency) (v : PackageKey) :
    (leaving edges v).length + (staying edges v).length = edges.length := by
  have := List.length_eq_countP_add_countP (l := edges)
    fun e : Dependency => decide (e.parent.key = v)
  simpa [leaving, staying, List.countP_eq_length_filter] using this.symm

/-- Take the packages of a queue one by one, and queue behind it, sorted, those whose last
open edge came from the one taken. -/
def take (edges : List Dependency) : List PackageId → List PackageId
  | [] => []
  | v :: queue =>
    let mine := leaving edges v.key
    let rest := staying edges v.key
    v :: take rest (queue ++ PackageId.sort (freed mine rest))
termination_by queue => edges.length + queue.length
decreasing_by
  -- Only children of the edges that go are queued.
  have hfreed := length_freed_le (leaving edges v.key) (staying edges v.key)
  have hsplit := length_leaving_add_staying edges v.key
  simp only [List.length_append, List.length_cons, PackageId.sort, length_sortBy]
  omega

variable (g : DependencyGraph)

def sources : List PackageId :=
  PackageId.sort ((g.members.map Member.name).filter fun v => (g.dependents v.key).isEmpty)

/-- The packages that can be reached in dependents-first order. -/
def order : List PackageId := take g.edges g.sources

/-- The cycles that a walk from every package meets, in order of the packages. -/
def cycles : List (List PackageId) :=
  Graph.cycles PackageId.key (fun k => (g.dependencies k).map Dependency.child)
    (g.sorted.map Member.name)

/-- The dependents-first order of all packages, or the first cycle. -/
def topological : Except Fault (List PackageId) :=
  if g.order.length = g.members.length then .ok g.order
  else .error (.dependencyCycle (g.cycles.headD []))

end Vetting.DependencyGraph
