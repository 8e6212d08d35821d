import Vetting.Order.Sorting

/-! Breadth-first search. A search is the list of the edges through which vertices
were first reached, in the order of discovery; paths are read off that list. -/

namespace Vetting.Graph

structure Edge (ν τ : Type) where
  source : ν
  target : ν
  label : τ

variable {ν τ : Type}

variable [DecidableEq ν]

/-- Of the edges that leave a vertex, the first to each target. -/
def firstPerTarget (edges : List (Edge ν τ)) (v : ν) : List (Edge ν τ) :=
  distinctOn Edge.target (edges.filter fun e => e.source = v)

/-- The edges that lead to no target of some others. -/
def avoiding (edges found : List (Edge ν τ)) : List (Edge ν τ) :=
  edges.filter fun e => e.target ∉ found.map Edge.target

theorem mem_avoiding {edges found : List (Edge ν τ)} {e : Edge ν τ} :
    e ∈ avoiding edges found ↔ e ∈ edges ∧ e.target ∉ found.map Edge.target := by
  rw [avoiding, List.mem_filter, decide_eq_true_eq]

theorem firstPerTarget_sublist (edges : List (Edge ν τ)) (v : ν) :
    (firstPerTarget edges v).Sublist edges :=
  (distinctOn_sublist _ _).trans List.filter_sublist

theorem length_avoiding_firstPerTarget (edges : List (Edge ν τ)) (v : ν) :
    (avoiding edges (firstPerTarget edges v)).length + (firstPerTarget edges v).length ≤
      edges.length := by
  have hsplit := List.length_eq_countP_add_countP (l := edges)
    fun e => decide (e.target ∉ (firstPerTarget edges v).map Edge.target)
  have hself : (firstPerTarget edges v).filter
      (fun e => decide ¬decide (e.target ∉ (firstPerTarget edges v).map Edge.target) = true) =
        firstPerTarget edges v := by
    refine List.filter_eq_self.2 fun e he => ?_
    simp only [decide_eq_true_eq, Classical.not_not]
    exact List.mem_map_of_mem he
  have hsub := ((firstPerTarget_sublist edges v).filter
    fun e => decide ¬decide (e.target ∉ (firstPerTarget edges v).map Edge.target) = true).length_le
  rw [hself] at hsub
  simp only [List.countP_eq_length_filter] at hsplit
  unfold avoiding
  omega

/-- Reach on from the vertices of a queue over the edges that lead to no vertex reached
before; the answer holds the edge that each further vertex is first reached through. -/
def explore (edges : List (Edge ν τ)) : List ν → List (Edge ν τ)
  | [] => []
  | v :: queue =>
    let found := firstPerTarget edges v
    found ++ explore (avoiding edges found) (queue ++ found.map Edge.target)
termination_by queue => edges.length + queue.length
decreasing_by
  -- Each target that is queued takes at least one edge out of the rest.
  have := length_avoiding_firstPerTarget edges v
  simp only [List.length_append, List.length_map, List.length_cons]
  omega

theorem mem_of_mem_explore {edges : List (Edge ν τ)} {queue : List ν} {e : Edge ν τ}
    (h : e ∈ explore edges queue) : e ∈ edges := by
  fun_induction explore edges queue with
  | case1 => simp at h
  | case2 edges v queue found ih =>
    rcases List.mem_append.1 h with h | h
    · exact (firstPerTarget_sublist edges v).subset h
    · exact (mem_avoiding.1 (ih h)).1

/-- Breadth-first search from a root that no edge leads to. -/
def search (edges : List (Edge ν τ)) (root : ν) : List (Edge ν τ) :=
  explore (edges.filter fun e => e.target ≠ root) [root]

/-- The path to a vertex over the edges of a search, the last of them first. -/
def pathBack : List (Edge ν τ) → ν → List (Edge ν τ)
  | [], _ => []
  | e :: earlier, v => if e.target = v then e :: pathBack earlier e.source else pathBack earlier v

def pathTo (tree : List (Edge ν τ)) (v : ν) : List (Edge ν τ) := (pathBack tree.reverse v).reverse

/-- Whether a search reached a vertex other than its root. -/
def reaches (tree : List (Edge ν τ)) (v : ν) : Bool := tree.any fun e => e.target = v

theorem reaches_iff {tree : List (Edge ν τ)} {v : ν} :
    reaches tree v = true ↔ v ∈ tree.map Edge.target := by
  simp [reaches, List.mem_map]

end Vetting.Graph
