import Vetting.Proofs.Walk

/-! Vertices that no edge leaves. A search finds the other vertices in the same order and by the
same edges whether it passes such vertices or not. -/

namespace Vetting.Graph

variable {ν τ : Type} {edges found tree : List (Edge ν τ)} {queue : List ν} {root v : ν}
  {keep : ν → Bool}

/-- The edges to the vertices that are kept. -/
def into (keep : ν → Bool) (edges : List (Edge ν τ)) : List (Edge ν τ) :=
  edges.filter fun e => keep e.target

theorem into_filter (p : Edge ν τ → Bool) :
    (into keep edges).filter p = into keep (edges.filter p) := by
  rw [into, into, List.filter_filter, List.filter_filter]
  simp only [Bool.and_comm]

theorem map_target_into : (into keep found).map Edge.target = (found.map Edge.target).filter keep := by
  rw [into, List.filter_map]
  rfl

variable [DecidableEq ν]

theorem firstPerTarget_into : firstPerTarget (into keep edges) v = into keep (firstPerTarget edges v) := by
  rw [firstPerTarget, into_filter, into, distinctOn_filter]
  rfl

theorem avoiding_into :
    avoiding (into keep edges) (into keep found) = into keep (avoiding edges found) := by
  rw [avoiding, map_target_into, into_filter, avoiding, into, into, List.filter_filter,
    List.filter_filter]
  refine List.filter_congr fun e _ => ?_
  by_cases he : keep e.target = true
  · simp [he]
  · simp [he]

theorem firstPerTarget_eq_nil (h : ∀ e ∈ edges, e.source ≠ v) : firstPerTarget edges v = [] := by
  rw [List.eq_nil_iff_forall_not_mem]
  intro e he
  obtain ⟨hmem, hsource⟩ := mem_firstPerTarget he
  exact h e hmem hsource

/-- Where every edge leaves a vertex that is kept, the search among those goes as the whole. -/
theorem explore_into (hsource : ∀ e ∈ edges, keep e.source = true) :
    explore (into keep edges) (queue.filter keep) = into keep (explore edges queue) := by
  fun_induction explore edges queue with
  | case1 => rw [List.filter_nil, explore, into, List.filter_nil]
  | case2 edges v queue found ih =>
    have hrest : ∀ e ∈ avoiding edges found, keep e.source = true :=
      fun e he => hsource e (mem_avoiding.1 he).1
    have happend : into keep (found ++ explore (avoiding edges found) (queue ++ found.map Edge.target)) =
        into keep found ++ into keep (explore (avoiding edges found) (queue ++ found.map Edge.target)) :=
      List.filter_append ..
    rw [happend, ← ih hrest, List.filter_append, ← map_target_into, ← avoiding_into,
      ← firstPerTarget_into, List.filter_cons]
    by_cases hv : keep v = true
    · rw [if_pos hv, explore, firstPerTarget_into]
    · -- Nothing is found from a vertex that is not kept.
      have hnone : firstPerTarget (into keep edges) v = [] := by
        refine firstPerTarget_eq_nil fun e he hev => hv ?_
        exact hev ▸ hsource e (List.mem_filter.1 he).1
      have hall : avoiding (into keep edges) [] = into keep edges :=
        List.filter_eq_self.2 fun e _ => by simp
      rw [if_neg hv, hnone, hall]
      simp

theorem pathBack_into (hsource : ∀ e ∈ tree, keep e.source = true) (hv : keep v = true) :
    pathBack (into keep tree) v = pathBack tree v := by
  induction tree generalizing v with
  | nil => rfl
  | cons e tree ih =>
    obtain ⟨he, htree⟩ := List.forall_mem_cons.1 hsource
    have hcons : into keep (e :: tree) =
        if keep e.target = true then e :: into keep tree else into keep tree := List.filter_cons
    rw [hcons, pathBack]
    by_cases hev : e.target = v
    · rw [if_pos (hev ▸ hv), pathBack, if_pos hev, if_pos hev, ih htree he]
    · rw [if_neg hev]
      split
      · rw [pathBack, if_neg hev, ih htree hv]
      · exact ih htree hv

theorem search_into (hsource : ∀ e ∈ edges, keep e.source = true) (hroot : keep root = true) :
    search (into keep edges) root = into keep (search edges root) := by
  have hqueue : [root].filter keep = [root] := by simp [hroot]
  have hexplore : explore (into keep (edges.filter fun e => e.target ≠ root)) ([root].filter keep) =
      into keep (explore (edges.filter fun e => e.target ≠ root) [root]) :=
    explore_into fun e he => hsource e (List.mem_filter.1 he).1
  rw [search, into_filter, search, ← hexplore, hqueue]

theorem reaches_into (hv : keep v = true) : reaches (into keep tree) v = reaches tree v := by
  rw [Bool.eq_iff_iff, reaches_iff, reaches_iff, map_target_into, List.mem_filter]
  exact and_iff_left hv

theorem pathTo_into (hsource : ∀ e ∈ tree, keep e.source = true) (hv : keep v = true) :
    pathTo (into keep tree) v = pathTo tree v := by
  have hreverse : (into keep tree).reverse = into keep tree.reverse := List.filter_reverse.symm
  rw [pathTo, pathTo, hreverse, pathBack_into (fun e he => hsource e (List.mem_reverse.1 he)) hv]

end Vetting.Graph
