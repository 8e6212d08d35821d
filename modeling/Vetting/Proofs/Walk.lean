import Vetting.Graph.Search
import Mathlib.Data.List.Basic

/-! Walks of a graph and what breadth-first search knows of them: it reaches what a walk
from the root leads to, and no walk is shorter than the path that it finds. -/

namespace Vetting.Graph

variable {ν τ : Type} {edges rest : List (Edge ν τ)} {u v w : ν} {p q : List (Edge ν τ)}

/-- Edges that lead on, each from where the one before it ended. -/
inductive Walk (edges : List (Edge ν τ)) (u : ν) : List (Edge ν τ) → ν → Prop
  | nil : Walk edges u [] u
  | snoc {p : List (Edge ν τ)} {e : Edge ν τ} (before : Walk edges u p e.source) (mem : e ∈ edges) :
      Walk edges u (p ++ [e]) e.target

namespace Walk

theorem cases_end (h : Walk edges u p v) :
    (p = [] ∧ v = u) ∨
      ∃ q e, p = q ++ [e] ∧ v = e.target ∧ e ∈ edges ∧ Walk edges u q e.source := by
  cases h with
  | nil => exact .inl ⟨rfl, rfl⟩
  | @snoc q e before mem => exact .inr ⟨q, e, rfl, rfl, mem, before⟩

theorem eq_of_nil (h : Walk edges u [] v) : v = u := by
  rcases h.cases_end with ⟨_, hv⟩ | ⟨q, e, hp, _⟩
  · exact hv
  · exact absurd hp (by simp)

theorem mono (h : Walk edges u p v) (hsub : ∀ e ∈ edges, e ∈ rest) : Walk rest u p v := by
  induction h with
  | nil => exact .nil
  | snoc _ mem ih => exact .snoc ih (hsub _ mem)

theorem edge {e : Edge ν τ} (he : e ∈ edges) : Walk edges e.source [e] e.target := by
  have h : Walk edges e.source ([] ++ [e]) e.target := .snoc .nil he
  simpa using h

theorem append (hp : Walk edges u p v) (hq : Walk edges v q w) : Walk edges u (p ++ q) w := by
  induction hq with
  | nil => simpa using hp
  | snoc _ mem ih =>
    rw [← List.append_assoc]
    exact .snoc ih mem

theorem mem_map_target (h : Walk edges u p v) (hp : p ≠ []) : v ∈ edges.map Edge.target := by
  rcases h.cases_end with ⟨hnil, _⟩ | ⟨_, e, _, rfl, he, _⟩
  · exact absurd hnil hp
  · exact List.mem_map_of_mem he

theorem ne_nil_of_not_mem {queue : List ν} (h : Walk edges u p v) (hu : u ∈ queue)
    (hv : v ∉ queue) : p ≠ [] := by
  intro hp
  subst hp
  exact hv (h.eq_of_nil ▸ hu)

end Walk

/-- Where a walk read from its end begins. -/
def origin : List (Edge ν τ) → ν → ν
  | [], v => v
  | e :: before, _ => origin before e.source

theorem Walk.origin_reverse (h : Walk edges u p v) : origin p.reverse v = u := by
  induction h with
  | nil => rfl
  | snoc _ _ ih => simpa [origin] using ih

variable [DecidableEq ν]

theorem pathBack_of_not_mem {l : List (Edge ν τ)} (h : v ∉ l.map Edge.target) :
    pathBack l v = [] := by
  induction l with
  | nil => rfl
  | cons e l ih =>
    simp only [List.map_cons, List.mem_cons, not_or] at h
    rw [pathBack, if_neg fun he => h.1 he.symm, ih h.2]

theorem pathBack_append (l m : List (Edge ν τ)) (v : ν) :
    pathBack (l ++ m) v = pathBack l v ++ pathBack m (origin (pathBack l v) v) := by
  induction l generalizing v with
  | nil => rfl
  | cons e l ih =>
    by_cases he : e.target = v
    · simp only [List.cons_append, pathBack, if_pos he, origin, ih]
    · simp only [List.cons_append, pathBack, if_neg he, ih]

theorem mem_firstPerTarget {e : Edge ν τ} (h : e ∈ firstPerTarget edges v) :
    e ∈ edges ∧ e.source = v := by
  have he := mem_of_mem_distinctOn h
  simpa using he

theorem target_mem_firstPerTarget {e : Edge ν τ} (he : e ∈ edges) (hv : e.source = v) :
    e.target ∈ (firstPerTarget edges v).map Edge.target := by
  have hmem : e ∈ edges.filter fun e => e.source = v := List.mem_filter.2 ⟨he, by simpa using hv⟩
  exact mem_map_distinctOn.2 (List.mem_map_of_mem hmem)

/-- Edges that leave a vertex which none of them enters are paths of their own. -/
theorem pathBack_reverse_firstPerTarget (hv : ∀ e ∈ edges, e.target ≠ v)
    (hw : w ∈ (firstPerTarget edges v).map Edge.target) :
    ∃ e ∈ edges, e.source = v ∧ e.target = w ∧
      pathBack (firstPerTarget edges v).reverse w = [e] := by
  obtain ⟨e, he, rfl⟩ := List.mem_map.1 hw
  obtain ⟨l, m, hlm⟩ := List.append_of_mem he
  have hdistinct : (l ++ e :: m).Pairwise fun a b => a.target ≠ b.target :=
    hlm ▸ pairwise_distinctOn Edge.target _
  have hm : e.target ∉ m.reverse.map Edge.target := by
    intro hmem
    obtain ⟨f, hf, hfe⟩ := List.mem_map.1 hmem
    have hef := (List.pairwise_cons.1 (List.pairwise_append.1 hdistinct).2.1).1 f
    exact hef (List.mem_reverse.1 hf) hfe.symm
  have hl : v ∉ l.reverse.map Edge.target := by
    intro hmem
    obtain ⟨f, hf, hfv⟩ := List.mem_map.1 hmem
    have hfound : f ∈ firstPerTarget edges v := by simp [hlm, List.mem_reverse.1 hf]
    exact hv f (mem_firstPerTarget hfound).1 hfv
  have hsource : e.source = v := (mem_firstPerTarget he).2
  refine ⟨e, (mem_firstPerTarget he).1, hsource, rfl, ?_⟩
  rw [hlm, List.reverse_append, List.reverse_cons, List.append_assoc, pathBack_append,
    pathBack_of_not_mem hm]
  simp only [List.nil_append, origin, List.cons_append, pathBack, if_true]
  rw [hsource, pathBack_of_not_mem hl]

/-- What a search may rely on: the edges left lead to no vertex of the queue, and the levels of
the queue go up by at most one. -/
structure Frontier (edges : List (Edge ν τ)) (queue : List ν) (level : ν → Nat) : Prop where
  ahead : ∀ e ∈ edges, e.target ∉ queue
  ordered : queue.Pairwise fun a b => level a ≤ level b
  span : ∀ a ∈ queue, ∀ b ∈ queue, level b ≤ level a + 1

variable {queue : List ν} {level : ν → Nat}

/-- The levels once some vertices are found from a vertex. -/
def levelAfter (level : ν → Nat) (v : ν) (found : List (Edge ν τ)) (w : ν) : Nat :=
  if w ∈ found.map Edge.target then level v + 1 else level w

omit [DecidableEq ν] in
theorem Frontier.head_le (h : Frontier edges (v :: queue) level) (hu : u ∈ v :: queue) :
    level v ≤ level u := by
  rcases List.mem_cons.1 hu with rfl | hu
  · exact Nat.le_refl _
  · exact (List.pairwise_cons.1 h.ordered).1 u hu

theorem Frontier.not_found (h : Frontier edges (v :: queue) level) (hu : u ∈ v :: queue) :
    u ∉ (firstPerTarget edges v).map Edge.target := by
  intro hmem
  obtain ⟨e, he, rfl⟩ := List.mem_map.1 hmem
  exact h.ahead e (mem_firstPerTarget he).1 hu

theorem Frontier.levelAfter_eq (h : Frontier edges (v :: queue) level) (hu : u ∈ v :: queue) :
    levelAfter level v (firstPerTarget edges v) u = level u := if_neg (h.not_found hu)

theorem Frontier.step (h : Frontier edges (v :: queue) level) :
    Frontier (avoiding edges (firstPerTarget edges v))
      (queue ++ (firstPerTarget edges v).map Edge.target)
      (levelAfter level v (firstPerTarget edges v)) := by
  have hold : ∀ a ∈ queue, levelAfter level v (firstPerTarget edges v) a = level a :=
    fun a ha => h.levelAfter_eq (List.mem_cons_of_mem _ ha)
  have hnew : ∀ b ∈ (firstPerTarget edges v).map Edge.target,
      levelAfter level v (firstPerTarget edges v) b = level v + 1 := fun b hb => if_pos hb
  have hlow : ∀ a ∈ queue, level v ≤ level a := fun a ha => h.head_le (List.mem_cons_of_mem _ ha)
  have hhigh : ∀ a ∈ queue, level a ≤ level v + 1 := fun a ha =>
    h.span v (List.mem_cons_self ..) a (List.mem_cons_of_mem _ ha)
  -- What is queued anew is one level above the head, and no vertex queued before is further up.
  refine ⟨?_, ?_, ?_⟩
  · intro e he hmem
    obtain ⟨he, hnot⟩ := mem_avoiding.1 he
    rcases List.mem_append.1 hmem with hq | hf
    · exact h.ahead e he (List.mem_cons_of_mem _ hq)
    · exact hnot hf
  · refine List.pairwise_append.2 ⟨?_, ?_, ?_⟩
    · refine (List.pairwise_cons.1 h.ordered).2.imp_of_mem fun ha hb hab => ?_
      rwa [hold _ ha, hold _ hb]
    · refine List.pairwise_of_forall_mem_list fun a ha b hb => ?_
      exact Nat.le_of_eq ((hnew a ha).trans (hnew b hb).symm)
    · intro a ha b hb
      rw [hold a ha, hnew b hb]
      exact hhigh a ha
  · intro a ha b hb
    rcases List.mem_append.1 ha with ha | ha <;> rcases List.mem_append.1 hb with hb | hb
    · rw [hold a ha, hold b hb]
      exact h.span a (List.mem_cons_of_mem _ ha) b (List.mem_cons_of_mem _ hb)
    · rw [hold a ha, hnew b hb]
      have := hlow a ha
      omega
    · rw [hnew a ha, hold b hb]
      have := hhigh b hb
      omega
    · rw [hnew a ha, hnew b hb]
      omega

/-- A walk from the queue goes on from the next queue, at its last vertex that was found, and
is no longer there than it was. -/
theorem Walk.resume (h : Frontier edges (v :: queue) level) (hu : u ∈ v :: queue)
    (hp : Walk edges u p w) (hgo : p ≠ [] ∨ u ∈ queue) :
    ∃ a ∈ queue ++ (firstPerTarget edges v).map Edge.target, ∃ q,
      Walk (avoiding edges (firstPerTarget edges v)) a q w ∧
        levelAfter level v (firstPerTarget edges v) a + q.length ≤ level u + p.length := by
  induction hp with
  | nil =>
    have huq : u ∈ queue := hgo.resolve_left fun hne => hne rfl
    refine ⟨u, List.mem_append_left _ huq, [], .nil, ?_⟩
    exact Nat.le_of_eq (h.levelAfter_eq hu)
  | @snoc p e before mem ih =>
    by_cases hfound : e.target ∈ (firstPerTarget edges v).map Edge.target
    · refine ⟨e.target, List.mem_append_right _ hfound, [], .nil, ?_⟩
      have hle := h.head_le hu
      rw [levelAfter, if_pos hfound]
      simp only [List.length_nil, List.length_append, List.length_singleton]
      omega
    · -- An edge out of `v` would have found its target, so the walk was under way before it.
      have hgo' : p ≠ [] ∨ u ∈ queue := by
        by_contra hstart
        simp only [not_or, not_not] at hstart
        obtain ⟨rfl, huq⟩ := hstart
        have huv : u = v := (List.mem_cons.1 hu).resolve_right huq
        exact hfound (target_mem_firstPerTarget mem (before.eq_of_nil.trans huv))
      obtain ⟨a, ha, q, hq, hlen⟩ := ih hgo'
      refine ⟨a, ha, q ++ [e], hq.snoc (mem_avoiding.2 ⟨mem, hfound⟩), ?_⟩
      simp only [List.length_append, List.length_singleton]
      omega

theorem walk_of_mem_explore (h : Frontier edges queue level)
    (hw : w ∈ (explore edges queue).map Edge.target) :
    w ∉ queue ∧ ∃ u ∈ queue, ∃ p, Walk edges u p w := by
  fun_induction explore edges queue generalizing level with
  | case1 => simp at hw
  | case2 edges v queue found =>
    rename_i ih
    have hfirst : ∀ u ∈ found.map Edge.target, ∃ e, Walk edges v [e] u := by
      intro u hu
      obtain ⟨e, he, rfl⟩ := List.mem_map.1 hu
      obtain ⟨hmem, hsource⟩ := mem_firstPerTarget he
      exact ⟨e, hsource ▸ Walk.edge hmem⟩
    rw [List.map_append, List.mem_append] at hw
    rcases hw with hfound | hrest
    · obtain ⟨e, he⟩ := hfirst w hfound
      exact ⟨fun hmem => h.not_found hmem hfound, v, List.mem_cons_self .., [e], he⟩
    · obtain ⟨hnot, u, hu, p, hp⟩ := ih h.step hrest
      have hp' : Walk edges u p w := hp.mono fun e he => (mem_avoiding.1 he).1
      obtain ⟨e, he, rfl⟩ := List.mem_map.1 (hp'.mem_map_target (hp.ne_nil_of_not_mem hu hnot))
      refine ⟨h.ahead e he, ?_⟩
      rcases List.mem_append.1 hu with hu | hu
      · exact ⟨u, List.mem_cons_of_mem _ hu, p, hp'⟩
      · obtain ⟨f, hf⟩ := hfirst u hu
        exact ⟨v, List.mem_cons_self .., [f] ++ p, hf.append hp'⟩

theorem mem_explore_of_walk (h : Frontier edges queue level) (hw : w ∉ queue) (hu : u ∈ queue)
    (hp : Walk edges u p w) : w ∈ (explore edges queue).map Edge.target := by
  fun_induction explore edges queue generalizing level u p with
  | case1 => exact absurd hu List.not_mem_nil
  | case2 edges v queue found =>
    rename_i ih
    rw [List.map_append, List.mem_append]
    by_cases hfound : w ∈ found.map Edge.target
    · exact .inl hfound
    · obtain ⟨a, ha, q, hq, _⟩ := hp.resume h hu (.inl (hp.ne_nil_of_not_mem hu hw))
      refine .inr (ih h.step (fun hmem => ?_) ha hq)
      rcases List.mem_append.1 hmem with hmem | hmem
      · exact hw (List.mem_cons_of_mem _ hmem)
      · exact hfound hmem

/-- The search reaches what walks from its queue lead to. -/
theorem mem_explore_iff (h : Frontier edges queue level) :
    w ∈ (explore edges queue).map Edge.target ↔
      w ∉ queue ∧ ∃ u ∈ queue, ∃ p, Walk edges u p w :=
  ⟨walk_of_mem_explore h, fun ⟨hw, _, hu, _, hp⟩ => mem_explore_of_walk h hw hu hp⟩

/-- Whether a path read back is a walk from the queue, and counted from the level of its start
no walk from the queue is shorter. -/
def Shortest (edges : List (Edge ν τ)) (queue : List ν) (level : ν → Nat)
    (back : List (Edge ν τ)) (w : ν) : Prop :=
  ∃ u ∈ queue, ∃ p, Walk edges u p w ∧ back = p.reverse ∧
    ∀ a ∈ queue, ∀ q, Walk edges a q w → level u + p.length ≤ level a + q.length

theorem Frontier.shortest_found (h : Frontier edges (v :: queue) level) (hw : w ∉ v :: queue)
    (hfound : w ∈ (firstPerTarget edges v).map Edge.target) :
    Shortest edges (v :: queue) level (pathBack (firstPerTarget edges v).reverse w) w := by
  have hv : ∀ e ∈ edges, e.target ≠ v := fun e he hev =>
    h.ahead e he (hev ▸ List.mem_cons_self ..)
  obtain ⟨e, he, rfl, rfl, hone⟩ := pathBack_reverse_firstPerTarget hv hfound
  refine ⟨e.source, List.mem_cons_self .., [e], Walk.edge he, hone, ?_⟩
  intro a ha q hq
  have hlow := h.head_le ha
  have hpos := List.length_pos_of_ne_nil (hq.ne_nil_of_not_mem ha hw)
  simp only [List.length_singleton]
  omega

/-- What is found later is found by a walk that goes on from the queue, or from an edge out of
its head. -/
theorem Frontier.shortest_rest (h : Frontier edges (v :: queue) level) (hw : w ∉ v :: queue)
    {back : List (Edge ν τ)}
    (hback : Shortest (avoiding edges (firstPerTarget edges v))
      (queue ++ (firstPerTarget edges v).map Edge.target)
      (levelAfter level v (firstPerTarget edges v)) back w) :
    Shortest edges (v :: queue) level
      (back ++ pathBack (firstPerTarget edges v).reverse (origin back w)) w := by
  obtain ⟨u, hu, p, hp, rfl, hmin⟩ := hback
  have hp' : Walk edges u p w := hp.mono fun e he => (mem_avoiding.1 he).1
  have hshort : ∀ a ∈ v :: queue, ∀ q, Walk edges a q w →
      levelAfter level v (firstPerTarget edges v) u + p.length ≤ level a + q.length := by
    intro a ha q hq
    obtain ⟨b, hb, r, hr, hlen⟩ := hq.resume h ha (.inl (hq.ne_nil_of_not_mem ha hw))
    exact Nat.le_trans (hmin b hb r hr) hlen
  rw [hp.origin_reverse]
  rcases List.mem_append.1 hu with hu | hu
  · have hold := h.levelAfter_eq (List.mem_cons_of_mem v hu)
    have hnot := h.not_found (List.mem_cons_of_mem v hu)
    have hnone : pathBack (firstPerTarget edges v).reverse u = [] :=
      pathBack_of_not_mem (by simpa only [List.map_reverse, List.mem_reverse] using hnot)
    rw [hnone, List.append_nil]
    exact ⟨u, List.mem_cons_of_mem _ hu, p, hp', rfl, hold ▸ hshort⟩
  · have hv : ∀ e ∈ edges, e.target ≠ v := fun e he hev =>
      h.ahead e he (hev ▸ List.mem_cons_self ..)
    obtain ⟨e, he, rfl, rfl, hone⟩ := pathBack_reverse_firstPerTarget hv hu
    have hlast : p.reverse ++ [e] = ([e] ++ p).reverse := by simp
    refine ⟨e.source, List.mem_cons_self .., [e] ++ p, (Walk.edge he).append hp', ?_, ?_⟩
    · rw [hone, hlast]
    · intro a ha q hq
      have hlen := hshort a ha q hq
      rw [levelAfter, if_pos hu] at hlen
      simp only [List.length_append, List.length_singleton]
      omega

theorem shortest_explore (h : Frontier edges queue level)
    (hw : w ∈ (explore edges queue).map Edge.target) :
    Shortest edges queue level (pathBack (explore edges queue).reverse w) w := by
  have hnot := (walk_of_mem_explore h hw).1
  fun_induction explore edges queue generalizing level w with
  | case1 => simp at hw
  | case2 edges v queue found =>
    rename_i ih
    rw [List.reverse_append, pathBack_append]
    -- The path is read back through what was found later first, and from there to the head.
    by_cases hrest :
        w ∈ (explore (avoiding edges found) (queue ++ found.map Edge.target)).map Edge.target
    · exact h.shortest_rest hnot (ih h.step hrest (walk_of_mem_explore h.step hrest).1)
    · have hfound : w ∈ found.map Edge.target := by
        rw [List.map_append] at hw
        exact (List.mem_append.1 hw).resolve_right hrest
      have hnone : pathBack
          (explore (avoiding edges found) (queue ++ found.map Edge.target)).reverse w = [] :=
        pathBack_of_not_mem (by simpa only [List.map_reverse, List.mem_reverse] using hrest)
      rw [hnone]
      exact h.shortest_found hnot hfound

variable {root : ν}

omit [DecidableEq ν] in
theorem frontier_root (hroot : ∀ e ∈ edges, e.target ≠ root) :
    Frontier edges [root] fun _ => 0 := by
  refine ⟨?_, List.pairwise_singleton _ _, ?_⟩
  · intro e he hmem
    exact hroot e he (List.mem_singleton.1 hmem)
  · intros
    omega

theorem search_eq_explore (hroot : ∀ e ∈ edges, e.target ≠ root) :
    search edges root = explore edges [root] := by
  rw [search, List.filter_eq_self.2 fun e he => by simpa using hroot e he]

theorem reaches_search_iff (hroot : ∀ e ∈ edges, e.target ≠ root) :
    reaches (search edges root) v = true ↔ v ≠ root ∧ ∃ p, Walk edges root p v := by
  rw [reaches_iff, search_eq_explore hroot, mem_explore_iff (frontier_root hroot)]
  simp

theorem walk_pathTo_search (hroot : ∀ e ∈ edges, e.target ≠ root)
    (hv : reaches (search edges root) v = true) :
    Walk edges root (pathTo (search edges root) v) v ∧
      ∀ p, Walk edges root p v → (pathTo (search edges root) v).length ≤ p.length := by
  rw [reaches_iff, search_eq_explore hroot] at hv
  obtain ⟨u, hu, p, hp, hback, hmin⟩ := shortest_explore (frontier_root hroot) hv
  obtain rfl := List.mem_singleton.1 hu
  have hpath : pathTo (search edges u) v = p := by
    rw [pathTo, search_eq_explore hroot, hback, List.reverse_reverse]
  rw [hpath]
  refine ⟨hp, fun q hq => ?_⟩
  simpa using hmin u hu q hq

end Vetting.Graph
