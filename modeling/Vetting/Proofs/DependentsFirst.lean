import Vetting.Dependency.Order
import Vetting.Proofs.CycleSearch
import Mathlib.Order.WellFoundedSet
import Mathlib.Data.List.Perm.Subperm

/-! The dependents-first order. It names no package twice, each comes after all packages that
an edge joins to it, and where no edges lead round in a circle it leaves out none. -/

namespace Vetting.DependencyGraph

variable {edges mine rest : List Dependency} {queue order : List PackageId} {v : PackageId}
  {k : PackageKey}

def Joins (edges : List Dependency) (a b : PackageKey) : Prop :=
  ∃ e ∈ edges, e.parent.key = a ∧ e.child.key = b

def NoCircle (edges : List Dependency) : Prop := ∀ k, ¬Relation.TransGen (Joins edges) k k

def Acyclic (g : DependencyGraph) : Prop := NoCircle g.edges

/-- Whether what every package of an order depends on comes after it, apart from what is done:
the parents of each are done or come before. -/
def DependentsFirst (edges : List Dependency) (done : List PackageKey) : List PackageId → Prop
  | [] => True
  | v :: vs => (∀ e ∈ edges, e.child.key = v.key → e.parent.key ∈ done) ∧
      DependentsFirst edges (v.key :: done) vs

theorem mem_leaving {e : Dependency} {k : PackageKey} :
    e ∈ leaving edges k ↔ e ∈ edges ∧ e.parent.key = k := by
  simp [leaving]

theorem mem_staying {e : Dependency} {k : PackageKey} :
    e ∈ staying edges k ↔ e ∈ edges ∧ e.parent.key ≠ k := by
  simp [staying]

theorem mem_freed {c : PackageId} (h : c ∈ freed mine rest) :
    (∃ e ∈ mine, e.child = c) ∧ ∀ e ∈ rest, e.child.key ≠ c.key := by
  obtain ⟨hc, hrest⟩ := List.mem_filter.1 h
  have hmine := mem_of_mem_distinctOn (List.mem_reverse.1 hc)
  refine ⟨?_, by simpa using hrest⟩
  obtain ⟨e, he, rfl⟩ := List.mem_map.1 hmine
  exact ⟨e, List.mem_reverse.1 he, rfl⟩

theorem key_mem_freed {e : Dependency} (he : e ∈ mine)
    (hrest : ∀ f ∈ rest, f.child.key ≠ e.child.key) :
    e.child.key ∈ (freed mine rest).map PackageId.key := by
  have hmem : e.child ∈ mine.reverse.map Dependency.child :=
    List.mem_map_of_mem (List.mem_reverse.2 he)
  obtain ⟨c, hc, hkey⟩ : ∃ c ∈ distinctOn PackageId.key (mine.reverse.map Dependency.child),
      c.key = e.child.key := exists_mem_distinctOn hmem
  refine hkey ▸ List.mem_map_of_mem (List.mem_filter.2 ⟨List.mem_reverse.2 hc, ?_⟩)
  simpa [hkey] using hrest

theorem nodup_freed : ((freed mine rest).map PackageId.key).Nodup := by
  have hdistinct := nodup_map_distinctOn PackageId.key (mine.reverse.map Dependency.child)
  have hreverse : ((distinctOn PackageId.key (mine.reverse.map Dependency.child)).reverse.map
      PackageId.key).Nodup := by
    rw [List.map_reverse]
    exact List.nodup_reverse.2 hdistinct
  exact hreverse.sublist (List.filter_sublist.map _)

theorem map_key_sort_perm (ids : List PackageId) :
    ((PackageId.sort ids).map PackageId.key).Perm (ids.map PackageId.key) :=
  (sortBy_perm _ ids).map _

/-- What the walk over a graph relies on: it has to wait for no package of the queue, and the
queue has none twice. -/
structure Ready (edges : List Dependency) (queue : List PackageId) : Prop where
  free : ∀ e ∈ edges, e.child.key ∉ queue.map PackageId.key
  nodup : (queue.map PackageId.key).Nodup

theorem mem_queue_step {mine rest : List Dependency} :
    k ∈ (queue ++ PackageId.sort (freed mine rest)).map PackageId.key ↔
      k ∈ queue.map PackageId.key ∨ k ∈ (freed mine rest).map PackageId.key := by
  rw [List.map_append, List.mem_append, (map_key_sort_perm _).mem_iff]

theorem Ready.step (h : Ready edges (v :: queue)) :
    Ready (staying edges v.key)
      (queue ++ PackageId.sort (freed (leaving edges v.key) (staying edges v.key))) := by
  refine ⟨?_, ?_⟩
  · intro e he hmem
    rcases mem_queue_step.1 hmem with hq | hf
    · exact h.free e (mem_staying.1 he).1 (List.mem_cons_of_mem _ hq)
    · obtain ⟨c, hc, hkey⟩ := List.mem_map.1 hf
      exact (mem_freed hc).2 e he hkey.symm
  · rw [List.map_append]
    refine List.nodup_append.2 ⟨(List.nodup_cons.1 h.nodup).2, ?_, ?_⟩
    · exact (map_key_sort_perm _).nodup_iff.2 nodup_freed
    · intro a ha b hb
      obtain ⟨c, hc, rfl⟩ := List.mem_map.1 ((map_key_sort_perm _).mem_iff.1 hb)
      obtain ⟨e, he, rfl⟩ := (mem_freed hc).1
      rintro rfl
      exact h.free e (mem_leaving.1 he).1 (List.mem_cons_of_mem _ ha)

theorem mem_of_mem_take (h : k ∈ (take edges queue).map PackageId.key) :
    k ∈ queue.map PackageId.key ∨ ∃ e ∈ edges, e.child.key = k := by
  fun_induction take edges queue with
  | case1 => simp at h
  | case2 edges v queue mine rest ih =>
    rcases List.mem_cons.1 h with rfl | h
    · exact .inl (List.mem_cons_self ..)
    · rcases ih h with hq | ⟨e, he, hkey⟩
      · rcases mem_queue_step.1 hq with hq | hf
        · exact .inl (List.mem_cons_of_mem _ hq)
        · obtain ⟨c, hc, rfl⟩ := List.mem_map.1 hf
          obtain ⟨e, he, rfl⟩ := (mem_freed hc).1
          exact .inr ⟨e, (mem_leaving.1 he).1, rfl⟩
      · exact .inr ⟨e, (mem_staying.1 he).1, hkey⟩

theorem nodup_take (h : Ready edges queue) : ((take edges queue).map PackageId.key).Nodup := by
  fun_induction take edges queue with
  | case1 => exact List.nodup_nil
  | case2 edges v queue mine rest ih =>
    rw [List.map_cons, List.nodup_cons]
    refine ⟨fun hmem => ?_, ih h.step⟩
    rcases mem_of_mem_take hmem with hq | ⟨e, he, hkey⟩
    · rcases mem_queue_step.1 hq with hq | hf
      · exact (List.nodup_cons.1 h.nodup).1 hq
      · obtain ⟨c, hc, hkey⟩ := List.mem_map.1 hf
        obtain ⟨e, he, rfl⟩ := (mem_freed hc).1
        exact h.free e (mem_leaving.1 he).1 (hkey ▸ List.mem_cons_self ..)
    · exact h.free e (mem_staying.1 he).1 (hkey ▸ List.mem_cons_self ..)

theorem dependentsFirst_take {all : List Dependency} {done : List PackageKey}
    (h : Ready edges queue) (hall : ∀ e ∈ all, e ∈ edges ∨ e.parent.key ∈ done) :
    DependentsFirst all done (take edges queue) := by
  fun_induction take edges queue generalizing done with
  | case1 => trivial
  | case2 edges v queue mine rest =>
    rename_i ih
    refine ⟨fun e he hchild => ?_, ih h.step fun e he => ?_⟩
    · refine (hall e he).resolve_left fun hmem => h.free e hmem ?_
      exact hchild ▸ List.mem_cons_self ..
    · rcases hall e he with hmem | hdone
      · by_cases hv : e.parent.key = v.key
        · exact .inr (hv ▸ List.mem_cons_self ..)
        · exact .inl (mem_staying.2 ⟨hmem, hv⟩)
      · exact .inr (List.mem_cons_of_mem _ hdone)

/-- Where no edges lead round in a circle, some edge leaves a package that none enters. -/
theorem exists_source (h : NoCircle edges) (hne : edges ≠ []) :
    ∃ e ∈ edges, ∀ f ∈ edges, f.child.key ≠ e.parent.key := by
  have : IsStrictOrder PackageKey (Relation.TransGen (Joins edges)) :=
    { irrefl := h, trans := fun _ _ _ => Relation.TransGen.trans }
  -- Finitely many packages are parents, so one of them is least in the order that edges make.
  let parents : Set PackageKey := {k | k ∈ edges.map fun e => e.parent.key}
  have hfinite : parents.Finite := List.finite_toSet _
  have hwf : parents.WellFoundedOn (Relation.TransGen (Joins edges)) := hfinite.wellFoundedOn
  obtain ⟨d, hd⟩ := List.exists_mem_of_ne_nil edges hne
  have hdp : d.parent.key ∈ parents := List.mem_map_of_mem (f := fun e => e.parent.key) hd
  obtain ⟨⟨k, hk⟩, _, hmin⟩ := hwf.has_min Set.univ ⟨⟨_, hdp⟩, trivial⟩
  obtain ⟨e, he, hek⟩ := List.mem_map.1 hk
  refine ⟨e, he, fun f hf hchild => ?_⟩
  have hfp : f.parent.key ∈ parents := List.mem_map_of_mem (f := fun e => e.parent.key) hf
  exact hmin ⟨_, hfp⟩ trivial (.single ⟨f, hf, rfl, hchild.trans hek⟩)

theorem NoCircle.subset (h : NoCircle edges) (hsub : ∀ e ∈ rest, e ∈ edges) : NoCircle rest := by
  intro k hk
  have hjoins : ∀ a b, Joins rest a b → Joins edges a b :=
    fun a b ⟨e, he, hjoin⟩ => ⟨e, hsub e he, hjoin⟩
  exact h k (Relation.TransGen.mono hjoins k k hk)

/-- Whether what has no edge to wait for is queued. -/
def Covered (edges : List Dependency) (queue : List PackageId) : Prop :=
  ∀ e ∈ edges, e.parent.key ∈ queue.map PackageId.key ∨ ∃ f ∈ edges, f.child.key = e.parent.key

theorem entered_step {e : Dependency} (he : e ∈ edges) (v : PackageKey) :
    (∃ f ∈ staying edges v, f.child.key = e.child.key) ∨
      e.child.key ∈ (freed (leaving edges v) (staying edges v)).map PackageId.key := by
  by_cases hstay : ∃ f ∈ staying edges v, f.child.key = e.child.key
  · exact .inl hstay
  · have hv : e.parent.key = v := by
      by_contra hne
      exact hstay ⟨e, mem_staying.2 ⟨he, hne⟩, rfl⟩
    simp only [not_exists, not_and] at hstay
    exact .inr (key_mem_freed (mem_leaving.2 ⟨he, hv⟩) hstay)

theorem Covered.step (h : Covered edges (v :: queue)) :
    Covered (staying edges v.key)
      (queue ++ PackageId.sort (freed (leaving edges v.key) (staying edges v.key))) := by
  intro e he
  obtain ⟨hmem, hne⟩ := mem_staying.1 he
  rcases h e hmem with hq | ⟨f, hf, hfe⟩
  · rcases List.mem_cons.1 hq with hv | hq
    · exact absurd hv hne
    · exact .inl (mem_queue_step.2 (.inl hq))
  · rcases entered_step hf v.key with ⟨d, hd, hdf⟩ | hfree
    · exact .inr ⟨d, hd, hdf.trans hfe⟩
    · exact .inl (mem_queue_step.2 (.inr (hfe ▸ hfree)))

theorem mem_take (hc : NoCircle edges) (h : Covered edges queue)
    (hk : k ∈ queue.map PackageId.key ∨ ∃ e ∈ edges, e.child.key = k) :
    k ∈ (take edges queue).map PackageId.key := by
  fun_induction take edges queue with
  | case1 edges =>
    rcases hk with hk | ⟨e, he, _⟩
    · simp at hk
    · obtain ⟨d, hd, hsource⟩ := exists_source hc (List.ne_nil_of_mem he)
      rcases h d hd with hq | ⟨f, hf, hfd⟩
      · simp at hq
      · exact absurd hfd (hsource f hf)
  | case2 edges v queue mine rest ih =>
    have hc' : NoCircle rest := hc.subset fun e he => (mem_staying.1 he).1
    rcases hk with hk | ⟨e, he, rfl⟩
    · rcases List.mem_cons.1 hk with rfl | hk
      · exact List.mem_cons_self ..
      · exact List.mem_cons_of_mem _ (ih hc' h.step (.inl (mem_queue_step.2 (.inl hk))))
    · -- The child waits for another edge, or is freed and so queued behind the others.
      refine List.mem_cons_of_mem _ (ih hc' h.step ?_)
      rcases entered_step he v.key with hstay | hfree
      · exact .inr hstay
      · exact .inl (mem_queue_step.2 (.inr hfree))

variable (g : DependencyGraph)

theorem mem_sources :
    k ∈ g.sources.map PackageId.key ↔ k ∈ g.members.map Member.key ∧ g.dependents k = [] := by
  rw [sources, (map_key_sort_perm _).mem_iff, List.mem_map]
  constructor
  · intro hx
    obtain ⟨v, hv, rfl⟩ := hx
    obtain ⟨hmem, hnone⟩ := List.mem_filter.1 hv
    obtain ⟨m, hm, rfl⟩ := List.mem_map.1 hmem
    exact ⟨List.mem_map.2 ⟨m, hm, rfl⟩, by simpa using hnone⟩
  · intro hx
    obtain ⟨hmem, hnone⟩ := hx
    obtain ⟨m, hm, rfl⟩ := List.mem_map.1 hmem
    refine ⟨m.name, List.mem_filter.2 ⟨List.mem_map_of_mem hm, ?_⟩, rfl⟩
    simpa [Member.key] using hnone

theorem ready_sources : Ready g.edges g.sources := by
  refine ⟨fun e he hmem => ?_, ?_⟩
  · have hnone := (g.mem_sources.1 hmem).2
    exact List.ne_nil_of_mem (mem_dependents.2 ⟨he, rfl⟩) hnone
  · refine (map_key_sort_perm _).nodup_iff.2 ?_
    have hkeys : ((g.members.map Member.name).map PackageId.key).Nodup := by
      rw [List.map_map]
      exact g.keys_nodup
    exact hkeys.sublist (List.filter_sublist.map _)

theorem covered_sources : Covered g.edges g.sources := by
  intro e he
  by_cases hnone : g.dependents e.parent.key = []
  · exact .inl (g.mem_sources.2 ⟨(g.edges_closed e he).1, hnone⟩)
  · obtain ⟨f, hf⟩ := List.exists_mem_of_ne_nil _ hnone
    obtain ⟨hmem, hkey⟩ := mem_dependents.1 hf
    exact .inr ⟨f, hmem, hkey⟩

theorem nodup_order : (g.order.map PackageId.key).Nodup := nodup_take g.ready_sources

theorem dependentsFirst_order : DependentsFirst g.edges [] g.order :=
  dependentsFirst_take g.ready_sources fun _ he => .inl he

theorem mem_members_of_mem_order (h : k ∈ g.order.map PackageId.key) :
    k ∈ g.members.map Member.key := by
  rcases mem_of_mem_take h with hsource | ⟨e, he, rfl⟩
  · exact (g.mem_sources.1 hsource).1
  · exact (g.edges_closed e he).2

theorem mem_order (hg : g.Acyclic) (h : k ∈ g.members.map Member.key) :
    k ∈ g.order.map PackageId.key := by
  refine mem_take hg g.covered_sources ?_
  by_cases hnone : g.dependents k = []
  · exact .inl (g.mem_sources.2 ⟨h, hnone⟩)
  · obtain ⟨f, hf⟩ := List.exists_mem_of_ne_nil _ hnone
    obtain ⟨hmem, hkey⟩ := mem_dependents.1 hf
    exact .inr ⟨f, hmem, hkey⟩

variable {g}

theorem topological_eq_ok (h : g.topological = .ok order) :
    order = g.order ∧ (order.map PackageId.key).Perm (g.members.map Member.key) := by
  unfold topological at h
  split at h
  · next hlen =>
    cases h
    refine ⟨rfl, ?_⟩
    have hsub : (g.order.map PackageId.key).Subperm (g.members.map Member.key) :=
      g.nodup_order.subperm fun k hk => g.mem_members_of_mem_order hk
    exact hsub.perm_of_length_le (by simp [hlen])
  · cases h

theorem mem_of_topological (h : g.topological = .ok order) :
    ∀ k ∈ g.members.map Member.key, k ∈ order.map PackageId.key := by
  intro k hk
  exact (topological_eq_ok h).2.mem_iff.2 hk

theorem topological_of_acyclic (hg : g.Acyclic) : g.topological = .ok g.order := by
  have hsub : (g.members.map Member.key).Subperm (g.order.map PackageId.key) :=
    g.keys_nodup.subperm fun k hk => g.mem_order hg hk
  have hsub' : (g.order.map PackageId.key).Subperm (g.members.map Member.key) :=
    g.nodup_order.subperm fun k hk => g.mem_members_of_mem_order hk
  have hlen : g.order.length = g.members.length := by
    have h := hsub.length_le
    have h' := hsub'.length_le
    simp only [List.length_map] at h h'
    omega
  rw [topological, if_pos hlen]

theorem acc_of_dependentsFirst {done : List PackageKey} (h : DependentsFirst edges done order)
    (hdone : ∀ k ∈ done, Acc (Joins edges) k) : ∀ k ∈ order.map PackageId.key,
      Acc (Joins edges) k := by
  induction order generalizing done with
  | nil => exact fun k hk => absurd hk List.not_mem_nil
  | cons v vs ih =>
    obtain ⟨hwait, hrest⟩ := h
    have hv : Acc (Joins edges) v.key := by
      refine .intro _ fun a ⟨e, he, hparent, hchild⟩ => ?_
      exact hparent ▸ hdone _ (hwait e he hchild)
    intro k hk
    rcases List.mem_cons.1 hk with rfl | hk
    · exact hv
    · exact ih hrest (List.forall_mem_cons.2 ⟨hv, hdone⟩) k hk

/-- The order is there if and only if no edges lead round in a circle. -/
theorem acyclic_iff : g.Acyclic ↔ g.topological = .ok g.order := by
  refine ⟨topological_of_acyclic, fun h k hk => ?_⟩
  refine Graph.not_transGen_self_of_acc ?_ hk
  obtain ⟨_, ⟨e, he, hparent, _⟩, _⟩ := Relation.TransGen.head'_iff.1 hk
  refine acc_of_dependentsFirst g.dependentsFirst_order (fun _ h => absurd h List.not_mem_nil) k ?_
  exact (topological_eq_ok h).2.mem_iff.2 (hparent ▸ (g.edges_closed e he).1)

end Vetting.DependencyGraph
