import Vetting.Proofs.ClosedWalks
import Vetting.Proofs.Equations
import Mathlib.Data.String.Basic

/-! The dependents-first order, and the cycles that stand in its way. A graph is ordered, and in one
way however it was put together, or some cycle of its edges is reported. -/

namespace Vetting

namespace PackageKey

/-- By package name, then by precedence of the release. -/
def compare (a b : PackageKey) : Ordering :=
  (Ord.compare a.package b.package).then (Release.compare a.release b.release)

instance : Std.TransCmp (fun a b : PackageKey => Release.compare a.release b.release) where
  eq_swap {a b} := @Std.OrientedCmp.eq_swap _ Release.compare _ a.release b.release
  isLE_trans {a b c} := @Std.TransCmp.isLE_trans _ Release.compare _ a.release b.release c.release

instance : Std.TransCmp compare :=
  inferInstanceAs (Std.TransCmp (compareLex (compareOn package)
    fun a b : PackageKey => Release.compare a.release b.release))

/-- Whether no two different packages of some are sorted alike. -/
def Apart (ks : List PackageKey) : Prop := ∀ a ∈ ks, ∀ b ∈ ks, compare a b = .eq → a = b

instance (ks : List PackageKey) : Decidable (Apart ks) :=
  inferInstanceAs (Decidable (∀ a ∈ ks, ∀ b ∈ ks, compare a b = .eq → a = b))

theorem Apart.subset {ks ls : List PackageKey} (h : Apart ks) (hsub : ∀ k ∈ ls, k ∈ ks) :
    Apart ls := fun a ha b hb => h a (hsub a ha) b (hsub b hb)

end PackageKey

namespace PackageId

variable {a b : PackageId} {ids ids' : List PackageId}

theorem precedes_iff : a.precedes b = true ↔ a.key.compare b.key = .lt := by
  rw [precedes, PackageKey.compare, Bool.or_eq_true, decide_eq_true_eq, Bool.and_eq_true, beq_iff_eq]
  change _ ↔ (Ord.compare a.package b.package).then _ = .lt
  rw [Ordering.then_eq_lt, compare_lt_iff_lt, compare_eq_iff_eq, Release.precedes_iff]
  rfl

theorem not_precedes_iff : b.precedes a = false ↔ (a.key.compare b.key).isLE = true := by
  rw [← Bool.not_eq_true, precedes_iff, @Std.OrientedCmp.eq_swap _ PackageKey.compare _ b.key a.key]
  cases a.key.compare b.key <;> decide

theorem pairwise_sort (ids : List PackageId) :
    (sort ids).Pairwise fun a b => b.precedes a = false := by
  refine pairwise_sortBy (fun a b h => ?_) (fun a b c hba hcb => ?_) ids
  · rw [not_precedes_iff, precedes_iff.1 h]
    rfl
  · rw [not_precedes_iff] at *
    exact Std.TransCmp.isLE_trans hba hcb

/-- Sorted lists of the same packages are equal where these are told apart. -/
theorem map_key_eq_of_pairwise (hapart : PackageKey.Apart (ids.map key)) (hids : (ids.map key).Nodup)
    (hids' : (ids'.map key).Nodup) (hsort : ids.Pairwise fun a b => b.precedes a = false)
    (hsort' : ids'.Pairwise fun a b => b.precedes a = false)
    (hsame : ∀ k, k ∈ ids.map key ↔ k ∈ ids'.map key) : ids.map key = ids'.map key := by
  have hsorted : ∀ {ids : List PackageId}, (ids.Pairwise fun a b => b.precedes a = false) →
      (ids.map key).Pairwise fun a b => (a.compare b).isLE = true := fun h =>
    List.pairwise_map.2 (h.imp not_precedes_iff.1)
  have hperm : (ids.map key).Perm (ids'.map key) := (List.perm_ext_iff_of_nodup hids hids').2 hsame
  refine hperm.eq_of_pairwise (fun a b ha hb hab hba => ?_) (hsorted hsort) (hsorted hsort')
  exact hapart a ha b ((hsame b).2 hb) (Std.OrientedCmp.isLE_antisymm hab hba)

end PackageId

namespace DependencyGraph

variable {edges edges' : List Dependency} {queue queue' order : List PackageId}
  {done : List PackageKey} {k v : PackageKey} {e : Dependency} {g g' : DependencyGraph}

/-! An order is settled by the packages that edges join. -/

theorem joins_staying {a b : PackageKey} :
    Joins (staying edges v) a b ↔ Joins edges a b ∧ a ≠ v := by
  constructor
  · rintro ⟨e, he, rfl, rfl⟩
    obtain ⟨hmem, hne⟩ := mem_staying.1 he
    exact ⟨⟨e, hmem, rfl, rfl⟩, hne⟩
  · rintro ⟨⟨e, he, rfl, rfl⟩, hne⟩
    exact ⟨e, mem_staying.2 ⟨he, hne⟩, rfl, rfl⟩

/-- Freed are the children of a package that depend on no other one. -/
theorem mem_map_key_freed : k ∈ (freed (leaving edges v) (staying edges v)).map PackageId.key ↔
    Joins edges v k ∧ ∀ a, Joins edges a k → a = v := by
  constructor
  · intro hk
    obtain ⟨c, hc, rfl⟩ := List.mem_map.1 hk
    obtain ⟨⟨e, he, rfl⟩, hrest⟩ := mem_freed hc
    obtain ⟨hmem, hparent⟩ := mem_leaving.1 he
    refine ⟨⟨e, hmem, hparent, rfl⟩, fun a ⟨f, hf, hfa, hfc⟩ => ?_⟩
    by_contra hne
    exact hrest f (mem_staying.2 ⟨hf, fun hfv => hne (hfa.symm.trans hfv)⟩) hfc
  · rintro ⟨⟨e, he, hparent, rfl⟩, honly⟩
    refine key_mem_freed (mem_leaving.2 ⟨he, hparent⟩) fun f hf hchild => ?_
    obtain ⟨hmem, hne⟩ := mem_staying.1 hf
    exact hne (honly _ ⟨f, hmem, rfl, hchild⟩)

/-- The walk over a graph takes the same packages from two queues of the same ones, if edges join
the same. -/
theorem map_key_take_congr (hqueue : queue.map PackageId.key = queue'.map PackageId.key)
    (hjoins : ∀ a b, Joins edges a b ↔ Joins edges' a b)
    (hapart : PackageKey.Apart (edges.map fun e => e.child.key)) :
    (take edges queue).map PackageId.key = (take edges' queue').map PackageId.key := by
  fun_induction take edges queue generalizing edges' queue' with
  | case1 =>
    obtain rfl := List.map_eq_nil_iff.1 hqueue.symm
    simp [take]
  | case2 edges v queue mine =>
    rename_i rest ih
    cases queue' with
    | nil => cases hqueue
    | cons w queue' =>
      obtain ⟨hkey, hqueue⟩ := List.cons.inj hqueue
      have hstay : ∀ a b, Joins rest a b ↔ Joins (staying edges' w.key) a b := by
        intro a b
        rw [joins_staying, joins_staying, hjoins, hkey]
      have hfreed : (PackageId.sort (freed mine rest)).map PackageId.key =
          (PackageId.sort (freed (leaving edges' w.key) (staying edges' w.key))).map
            PackageId.key := by
        refine PackageId.map_key_eq_of_pairwise (hapart.subset fun k hk => ?_)
          ((map_key_sort_perm _).nodup_iff.2 nodup_freed)
          ((map_key_sort_perm _).nodup_iff.2 nodup_freed) (PackageId.pairwise_sort _)
          (PackageId.pairwise_sort _) fun k => ?_
        · rw [(map_key_sort_perm _).mem_iff] at hk
          obtain ⟨⟨e, he, _, rfl⟩, _⟩ := mem_map_key_freed.1 hk
          exact List.mem_map_of_mem he
        · rw [(map_key_sort_perm _).mem_iff, (map_key_sort_perm _).mem_iff, mem_map_key_freed,
            mem_map_key_freed, hkey]
          simp only [hjoins]
      rw [take, List.map_cons, List.map_cons, hkey]
      refine congrArg _ (ih ?_ hstay (hapart.subset fun k hk => ?_))
      · rw [List.map_append, List.map_append, hqueue, hfreed]
      · obtain ⟨e, he, rfl⟩ := List.mem_map.1 hk
        exact List.mem_map_of_mem (mem_staying.1 he).1

/-- Whether two graphs have the same packages, and edges that join the same of them. -/
structure SameShape (g h : DependencyGraph) : Prop where
  members : ∀ k, k ∈ g.members.map Member.key ↔ k ∈ h.members.map Member.key
  joins : ∀ a b, Joins g.edges a b ↔ Joins h.edges a b

/-- Whether no two different packages of a graph are sorted alike. -/
def Apart (g : DependencyGraph) : Prop := PackageKey.Apart (g.members.map Member.key)

instance (g : DependencyGraph) : Decidable g.Apart :=
  inferInstanceAs (Decidable (PackageKey.Apart _))

theorem dependents_eq_nil_iff : g.dependents k = [] ↔ ∀ a, ¬Joins g.edges a k := by
  rw [dependents, List.filter_eq_nil_iff]
  constructor
  · intro hnone a hjoins
    obtain ⟨e, he, _, hchild⟩ := hjoins
    exact hnone e he (decide_eq_true hchild)
  · intro hnone e he hchild
    exact hnone e.parent.key ⟨e, he, rfl, of_decide_eq_true hchild⟩

theorem SameShape.map_key_sources (h : SameShape g g') (hapart : g.Apart) :
    g.sources.map PackageId.key = g'.sources.map PackageId.key := by
  refine PackageId.map_key_eq_of_pairwise (PackageKey.Apart.subset hapart fun k hk => ?_)
    g.ready_sources.nodup g'.ready_sources.nodup (PackageId.pairwise_sort _)
    (PackageId.pairwise_sort _) fun k => ?_
  · exact (g.mem_sources.1 hk).1
  · rw [mem_sources, mem_sources, dependents_eq_nil_iff, dependents_eq_nil_iff, h.members]
    simp only [h.joins]

/-- The order that packages are reached in does not show how a graph was put together. -/
theorem SameShape.map_key_order (h : SameShape g g') (hapart : g.Apart) :
    g.order.map PackageId.key = g'.order.map PackageId.key := by
  refine map_key_take_congr (h.map_key_sources hapart) h.joins
    (PackageKey.Apart.subset hapart fun k hk => ?_)
  obtain ⟨e, he, rfl⟩ := List.mem_map.1 hk
  exact (g.edges_closed e he).2

theorem SameShape.acyclic (h : SameShape g g') (hg : g.Acyclic) : g'.Acyclic := by
  intro k hk
  exact hg k (Relation.TransGen.mono (fun a b => (h.joins a b).2) k k hk)

/-! Parents come first, and cycles are circles. -/

theorem DependentsFirst.sublist (h : DependentsFirst edges done order) (he : e ∈ edges)
    (hchild : e.child.key ∈ order.map PackageId.key) :
    e.parent.key ∈ done ∨ [e.parent.key, e.child.key].Sublist (order.map PackageId.key) := by
  induction order generalizing done with
  | nil => cases hchild
  | cons v vs ih =>
    obtain ⟨hfirst, hrest⟩ := h
    rcases List.mem_cons.1 hchild with heq | hmem
    · exact .inl (hfirst e he heq)
    · rcases ih hrest hmem with hdone | hsub
      · rcases List.mem_cons.1 hdone with heq | hdone
        · refine .inr ?_
          rw [heq]
          exact (List.singleton_sublist.2 hmem).cons_cons _
        · exact .inl hdone
      · exact .inr (hsub.cons _)

/-- What an order of a graph has to be: every package once, and parents before their children. -/
structure Orders (g : DependencyGraph) (order : List PackageId) : Prop where
  nodup : (order.map PackageId.key).Nodup
  mem_iff : ∀ k, k ∈ order.map PackageId.key ↔ k ∈ g.members.map Member.key
  parentsFirst : ∀ e ∈ g.edges, [e.parent.key, e.child.key].Sublist (order.map PackageId.key)

theorem orders_order (hg : g.Acyclic) : g.Orders g.order where
  nodup := g.nodup_order
  mem_iff := fun _ => ⟨g.mem_members_of_mem_order, g.mem_order hg⟩
  parentsFirst := fun e he =>
    (g.dependentsFirst_order.sublist he (g.mem_order hg (g.edges_closed e he).2)).resolve_left
      List.not_mem_nil

/-- The packages that one depends on, as the edges name them. -/
def childrenOf (g : DependencyGraph) (k : PackageKey) : List PackageId :=
  (g.dependencies k).map Dependency.child

theorem mem_childrenOf {c : PackageId} :
    c ∈ g.childrenOf k ↔ ∃ e ∈ g.edges, e.parent.key = k ∧ e.child = c := by
  simp [childrenOf, mem_dependencies, and_assoc]

theorem follows_childrenOf {a b : PackageKey} :
    Graph.Follows PackageId.key g.childrenOf b a ↔ Joins g.edges a b := by
  constructor
  · rintro ⟨c, hc, rfl⟩
    obtain ⟨e, he, hparent, rfl⟩ := mem_childrenOf.1 hc
    exact ⟨e, he, hparent, rfl⟩
  · rintro ⟨e, he, hparent, rfl⟩
    exact ⟨e.child, mem_childrenOf.2 ⟨e, he, hparent, rfl⟩, rfl⟩

/-- No cycle is reported if and only if no edges lead round in a circle. -/
theorem cycles_eq_nil_iff : g.cycles = [] ↔ g.Acyclic := by
  have hnames : ∀ {k}, k ∈ (g.sorted.map Member.name).map PackageId.key ↔
      k ∈ g.members.map Member.key := by
    intro k
    rw [List.map_map]
    exact ((sortBy_perm _ g.members).map _).mem_iff
  have hknown : ∀ k, ∀ c ∈ g.childrenOf k,
      k ∈ (g.sorted.map Member.name).map PackageId.key ∧
        c.key ∈ (g.sorted.map Member.name).map PackageId.key := by
    intro k c hc
    obtain ⟨e, he, rfl, rfl⟩ := mem_childrenOf.1 hc
    exact (g.edges_closed e he).imp hnames.2 hnames.2
  have hiff : g.cycles = [] ↔
      ∀ k, ¬Relation.TransGen (Graph.Follows PackageId.key g.childrenOf) k k :=
    Graph.cycles_eq_nil_iff hknown
  have hswap : Graph.Follows PackageId.key g.childrenOf = Function.swap (Joins g.edges) := by
    funext b a
    exact propext follows_childrenOf
  rw [hiff, hswap]
  exact forall_congr' fun k => not_congr Relation.transGen_swap

/-- Topological sorting decides whether edges lead round in a circle. Where none do, no cycle is
reported and every package is listed once and after its parents, in an order that, as far as
packages are told apart, hangs on the packages and edges alone. Else cycles are reported, the first
of them as the fault. Every cycle that is reported is a closed walk along edges. -/
theorem topological_or_cycle (g : DependencyGraph) :
    (∀ walk ∈ g.cycles, Graph.ClosedWalk PackageId.key g.childrenOf walk) ∧
      (g.Acyclic → g.cycles = [] ∧ ∃ order, g.topological = .ok order ∧ g.Orders order ∧
        (g.Apart → ∀ g', SameShape g g' → ∃ order', g'.topological = .ok order' ∧
          order'.map PackageId.key = order.map PackageId.key)) ∧
      (¬g.Acyclic → ∃ first rest, g.cycles = first :: rest ∧
        g.topological = .error (.dependencyCycle first)) := by
  refine ⟨fun _ hwalk => Graph.closedWalk_of_mem_cycles hwalk, fun hg => ?_, fun hg => ?_⟩
  · refine ⟨cycles_eq_nil_iff.2 hg, g.order, topological_of_acyclic hg, orders_order hg, ?_⟩
    intro hapart g' hsame
    exact ⟨g'.order, topological_of_acyclic (hsame.acyclic hg), (hsame.map_key_order hapart).symm⟩
  · obtain ⟨first, rest, hcycles⟩ := List.exists_cons_of_ne_nil fun hnil => hg (cycles_eq_nil_iff.1 hnil)
    have hshort : ¬g.order.length = g.members.length := fun hlen =>
      hg (acyclic_iff.2 (if_pos hlen))
    refine ⟨first, rest, hcycles, ?_⟩
    rw [topological, if_neg hshort, hcycles]
    rfl

/-- The workbench, put together the other way round. -/
def workbenchBackwards : DependencyGraph where
  members := workbench.members.reverse
  edges := workbench.edges.reverse
  keys_nodup := by decide +kernel
  node_key := by decide +kernel
  edges_distinct := by decide +kernel
  edges_closed := by decide +kernel

/-- Two packages that need each other, one of which tests itself. -/
def seesaw : DependencyGraph :=
  let id : String → PackageId := fun name => ⟨name, { major := 1, minor := 0, patch := 0 }⟩
  { members := [⟨id "up", { id := id "up" }⟩, ⟨id "down", { id := id "down" }⟩]
    edges := [⟨id "up", id "down", .normal⟩, ⟨id "down", id "up", .build⟩,
      ⟨id "down", id "down", .dev⟩]
    keys_nodup := by decide +kernel
    node_key := by decide +kernel
    edges_distinct := by decide +kernel
    edges_closed := by decide +kernel }

theorem topological_or_cycle_workbench :
    (workbench.Acyclic ∧ workbench.Apart ∧ SameShape workbench workbenchBackwards ∧
      ∃ order order', workbench.topological = .ok order ∧ workbench.Orders order ∧
        workbenchBackwards.topological = .ok order' ∧
          order'.map PackageId.key = order.map PackageId.key) ∧
      ¬seesaw.Acyclic ∧ ∃ first rest, seesaw.cycles = first :: rest ∧
        seesaw.topological = .error (.dependencyCycle first) ∧
          Graph.ClosedWalk PackageId.key seesaw.childrenOf first := by
  have happart : workbench.Apart := by decide +kernel
  have hsame : SameShape workbench workbenchBackwards := by
    refine ⟨fun k => ?_, fun a b => ?_⟩
    · rw [workbenchBackwards, List.map_reverse, List.mem_reverse]
    · simp only [Joins, workbenchBackwards, List.mem_reverse]
  have hcircle : ¬seesaw.Acyclic := by
    rw [acyclic_iff, topological, if_neg (by decide +kernel)]
    exact fun h => by cases h
  obtain ⟨_, hordered, _⟩ := topological_or_cycle workbench
  obtain ⟨_, order, horder, horders, hcanonical⟩ := hordered acyclic_workbench
  obtain ⟨order', horder', heq⟩ := hcanonical happart _ hsame
  obtain ⟨hwalks, _, hcyclic⟩ := topological_or_cycle seesaw
  obtain ⟨first, rest, hcycles, hfault⟩ := hcyclic hcircle
  have hwalk := hwalks first (hcycles ▸ List.mem_cons_self ..)
  exact ⟨⟨acyclic_workbench, happart, hsame, order, order', horder, horders, horder', heq⟩, hcircle,
    first, rest, hcycles, hfault, hwalk⟩

end DependencyGraph

end Vetting
