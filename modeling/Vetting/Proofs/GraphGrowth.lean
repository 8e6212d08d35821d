import Vetting.Proofs.DeadEnds
import Vetting.Proofs.Resolution

/-! Audit graphs that know some versions more. No record starts at such a version, so that a graph
which keeps the old ones in their order answers for them path and all. Releases of different
precedence have one order only. -/

namespace Vetting

/-- Whether no two different releases of some have the same precedence. -/
def Release.Apart (rs : List Release) : Prop :=
  ∀ a ∈ rs, ∀ b ∈ rs, Release.compare a b = .eq → a = b

instance (rs : List Release) : Decidable (Release.Apart rs) :=
  inferInstanceAs (Decidable (∀ a ∈ rs, ∀ b ∈ rs, Release.compare a b = .eq → a = b))

theorem Release.Apart.subset {rs ss : List Release} (h : Release.Apart rs)
    (hsub : ∀ a ∈ ss, a ∈ rs) : Release.Apart ss := fun a ha b hb => h a (hsub a ha) b (hsub b hb)

/-- Sorted lists of the same releases are equal where no two of them have the same precedence. -/
theorem Release.Apart.eq_of_mem_iff {rs ss : List Release} (hapart : Release.Apart rs)
    (hr : rs.Nodup) (hs : ss.Nodup) (hrsort : rs.Pairwise fun a b => b.precedes a = false)
    (hssort : ss.Pairwise fun a b => b.precedes a = false) (h : ∀ a, a ∈ rs ↔ a ∈ ss) :
    rs = ss := by
  have hperm : rs.Perm ss := (List.perm_ext_iff_of_nodup hr hs).2 h
  apply hperm.eq_of_pairwise _ hrsort hssort
  intro a b ha hb hab hba
  rw [Release.not_precedes_iff] at hab hba
  have heq : Release.compare a b = .eq := Std.OrientedCmp.isLE_antisymm hab hba
  exact hapart a ha b ((h b).2 hb) heq

namespace AuditGraph

variable {model : CriteriaModel} {store : AuditStore model} {mode : ExemptionMode}
  {package criterion : String} {more fewer all kept : List Version} {r : AuditRecord} {v : Release}

theorem nodup_known [SetOrder] : ((known store package more).map Version.toRelease).Nodup :=
  ((Version.sortedSet_perm package _).map Version.toRelease).nodup_iff.2
    (nodup_map_distinctOn Version.toRelease _)

theorem pairwise_known [SetOrder] :
    ((known store package more).map Version.toRelease).Pairwise fun a b =>
    b.precedes a = false := List.pairwise_map.2 (Version.pairwise_sort _)

/-- The audit graph of a package over some versions. -/
def ofNodes (store : AuditStore model) (package : String) (versions : List Version) : AuditGraph :=
  { package, versions, edges := (store.recordsFor package).flatMap (edgesOf versions) }

/-- Whether versions that are kept of some are all that records name, in the order of the whole. -/
structure Keeps (store : AuditStore model) (package : String) (all kept : List Version) : Prop where
  named : ∀ r ∈ store.recordsFor package, ∀ v ∈ r.versions.map Version.toRelease,
    v ∈ kept.map Version.toRelease
  filter_eq : ((all.map Version.toRelease).filter fun v => v ∈ kept.map Version.toRelease) =
    kept.map Version.toRelease

/-- Of releases of different precedence, sorted, those that are kept stand in the order that they
have on their own. -/
theorem Keeps.of_apart (hapart : Release.Apart (all.map Version.toRelease))
    (hall : (all.map Version.toRelease).Nodup) (hkept : (kept.map Version.toRelease).Nodup)
    (hallsort : (all.map Version.toRelease).Pairwise fun a b => b.precedes a = false)
    (hkeptsort : (kept.map Version.toRelease).Pairwise fun a b => b.precedes a = false)
    (hsub : ∀ v ∈ kept.map Version.toRelease, v ∈ all.map Version.toRelease)
    (hnamed : ∀ r ∈ store.recordsFor package, ∀ v ∈ r.versions.map Version.toRelease,
      v ∈ kept.map Version.toRelease) : Keeps store package all kept where
  named := hnamed
  filter_eq := by
    have hleft : Release.Apart ((all.map Version.toRelease).filter
        fun v => v ∈ kept.map Version.toRelease) :=
      hapart.subset fun a ha => (List.mem_filter.1 ha).1
    apply hleft.eq_of_mem_iff (hall.filter _) hkept (hallsort.filter _) hkeptsort
    intro v
    rw [List.mem_filter, decide_eq_true_eq]
    exact and_iff_right_of_imp (hsub v)

theorem named_known [SetOrder] (r : AuditRecord) (hr : r ∈ store.recordsFor package) (v : Release)
    (hv : v ∈ r.versions.map Version.toRelease) :
    v ∈ (known store package more).map Version.toRelease := mem_map_known.2 (.inl ⟨r, hr, hv⟩)

/-- The vertices of the graph over some versions. -/
def isAmong (versions : List Version) : AuditVertex → Bool
  | none => true
  | some v => decide (v ∈ versions.map Version.toRelease)

theorem Keeps.isAmong_source (h : Keeps store package all kept) {e : AuditEdge}
    (he : e ∈ (ofNodes store package all).edges) : isAmong kept e.source = true := by
  obtain ⟨r, hr, her⟩ := List.mem_flatMap.1 he
  obtain ⟨_, _, _, ⟨hroot, _⟩ | ⟨u, hu, hleads⟩⟩ := mem_edgesOf her
  · rw [hroot]
    rfl
  · rw [hu]
    exact decide_eq_true (h.named r hr u hleads.mem_versions)

theorem edgesOf_grant (versions : List Version) (g : Grant) :
    edgesOf versions (.grant g) =
      ((versions.map Version.toRelease).filter g.versions.contains).map fun v =>
        (⟨none, some v, .grant g⟩ : AuditEdge) := by
  rw [List.filter_map, List.map_map]
  rfl

theorem Keeps.into_edgesOf (h : Keeps store package all kept) (hr : r ∈ store.recordsFor package) :
    Graph.into (isAmong kept) (edgesOf all r) = edgesOf kept r := by
  have hnamed : ∀ v ∈ r.versions.map Version.toRelease, isAmong kept (some v) = true :=
    fun v hv => decide_eq_true (h.named r hr v hv)
  -- Records other than grants lead to releases that they name themselves.
  cases r with
  | full a =>
    refine List.filter_eq_self.2 fun e he => ?_
    obtain rfl := List.mem_singleton.1 he
    exact hnamed _ (List.mem_cons_self ..)
  | delta a =>
    refine List.filter_eq_self.2 fun e he => ?_
    obtain rfl := List.mem_singleton.1 he
    exact hnamed _ (List.mem_cons_of_mem _ (List.mem_cons_self ..))
  | exemption x =>
    refine List.filter_eq_self.2 fun e he => ?_
    obtain rfl := List.mem_singleton.1 he
    exact hnamed _ (List.mem_cons_self ..)
  | violation x => rfl
  | grant g =>
    rw [edgesOf_grant, edgesOf_grant, Graph.into, List.filter_map, ← h.filter_eq,
      List.filter_filter, List.filter_filter]
    congr 1
    refine List.filter_congr fun v _ => ?_
    rw [Bool.and_comm]
    rfl

theorem Keeps.into_edges (h : Keeps store package all kept) :
    Graph.into (isAmong kept) (ofNodes store package all).edges =
      (ofNodes store package kept).edges := by
  change ((store.recordsFor package).flatMap (edgesOf all)).filter _ =
    (store.recordsFor package).flatMap (edgesOf kept)
  rw [List.filter_flatMap]
  exact List.flatMap_congr fun r hr => h.into_edgesOf hr

/-- A release resolves in a graph over all versions as it does in one over those that are kept, path
and all. -/
theorem Keeps.resolveIn_eq (h : Keeps store package all kept)
    (hv : v ∈ kept.map Version.toRelease) :
    store.resolveIn mode (ofNodes store package all) v criterion =
      store.resolveIn mode (ofNodes store package kept) v criterion := by
  have hsource : ∀ e ∈ (ofNodes store package all).edgesFor model mode criterion,
      isAmong kept e.source = true := fun e he => h.isAmong_source (List.mem_filter.1 he).1
  have hedges : (ofNodes store package kept).edgesFor model mode criterion =
      Graph.into (isAmong kept) ((ofNodes store package all).edgesFor model mode criterion) := by
    rw [edgesFor, ← h.into_edges, Graph.into_filter]
    rfl
  have hsearch : (ofNodes store package kept).searchFor model mode criterion =
      Graph.into (isAmong kept) ((ofNodes store package all).searchFor model mode criterion) := by
    change Graph.search ((ofNodes store package kept).edgesFor model mode criterion) none = _
    rw [hedges, Graph.search_into hsource rfl]
    rfl
  have htree : ∀ e ∈ (ofNodes store package all).searchFor model mode criterion,
      isAmong kept e.source = true := by
    intro e he
    exact hsource e (List.mem_filter.1 (Graph.mem_of_mem_explore he)).1
  have hkeep : isAmong kept (some v) = true := decide_eq_true hv
  have hpackage : (ofNodes store package all).package = (ofNodes store package kept).package := rfl
  simp only [AuditStore.resolveIn, hpackage, hsearch, Graph.reaches_into hkeep,
    Graph.pathTo_into htree hkeep]

end AuditGraph

namespace AuditStore

variable {model : CriteriaModel} {store : AuditStore model} {mode : ExemptionMode}
  {package criterion : String} {more fewer : List Version} {v : Release} {id : PackageId}

/-- A release resolves in a larger graph as it does in a smaller one that has it, path and all. -/
theorem resolveIn_build [SetOrder]
    (hapart : Release.Apart ((AuditGraph.known store package more).map Version.toRelease))
    (hsub : ∀ v ∈ (AuditGraph.known store package fewer).map Version.toRelease,
      v ∈ (AuditGraph.known store package more).map Version.toRelease)
    (hv : v ∈ (AuditGraph.known store package fewer).map Version.toRelease) :
    store.resolveIn mode (AuditGraph.build store package more) v criterion =
      store.resolveIn mode (AuditGraph.build store package fewer) v criterion := by
  have hkeeps : AuditGraph.Keeps store package (AuditGraph.known store package more)
      (AuditGraph.known store package fewer) :=
    .of_apart hapart AuditGraph.nodup_known AuditGraph.nodup_known AuditGraph.pairwise_known
      AuditGraph.pairwise_known hsub AuditGraph.named_known
  exact hkeeps.resolveIn_eq hv

/-- Where releases have different precedence, nothing depends on how sets are gone through. -/
theorem resolve_congr_order {o p : SetOrder} (hapart : Release.Apart
      ((@AuditGraph.known o model store id.package [id.version]).map Version.toRelease)) :
    @resolve model store mode o id criterion = @resolve model store mode p id criterion := by
  have hsub : ∀ v ∈ (@AuditGraph.known p model store id.package [id.version]).map
      Version.toRelease, v ∈ (@AuditGraph.known o model store id.package [id.version]).map
        Version.toRelease := fun v hv =>
    (@AuditGraph.mem_map_known model store id.package [id.version] v o).2
      (AuditGraph.mem_map_known.1 hv)
  have hkeeps : AuditGraph.Keeps store id.package
      (@AuditGraph.known o model store id.package [id.version])
      (@AuditGraph.known p model store id.package [id.version]) :=
    .of_apart hapart (@AuditGraph.nodup_known model store id.package _ o) AuditGraph.nodup_known
      (@AuditGraph.pairwise_known model store id.package _ o) AuditGraph.pairwise_known hsub
      AuditGraph.named_known
  exact hkeeps.resolveIn_eq mem_known_self

theorem satisfiedIn_build [SetOrder]
    (hv : id.version.toRelease ∈
      (AuditGraph.known store id.package more).map Version.toRelease) :
    store.satisfiedIn mode (AuditGraph.build store id.package more) id.version.toRelease =
      store.satisfied mode id := by
  ext c
  rw [mem_satisfiedIn_iff_chain hv, mem_satisfied_iff_chain]

/-- What a version satisfies does not depend on how sets are gone through. -/
theorem satisfied_congr_order {o p : SetOrder} :
    @satisfied model store mode o id = @satisfied model store mode p id := by
  have hchain : ∀ (order : SetOrder) (c : String), c ∈ @satisfied model store mode order id ↔
      c ∈ model ∧ (∀ r ∈ store.accepted, r.denies model id.package id.version.toRelease c = false) ∧
        ∃ chain, store.Chain mode id.package c chain id.version.toRelease :=
    fun _ _ => mem_satisfied_iff_chain
  ext c
  exact (hchain o c).trans (hchain p c).symm

theorem isSatisfied_resolveIn_build [SetOrder] (id : PackageId)
    (hv : id.version.toRelease ∈
      (AuditGraph.known store id.package more).map Version.toRelease) :
    (store.resolveIn mode (AuditGraph.build store id.package more) id.version.toRelease
      criterion).isSatisfied = (store.resolve mode id criterion).isSatisfied := by
  rw [Bool.eq_iff_iff, isSatisfied_resolveIn_iff_chain hv, isSatisfied_resolve_iff_chain]

theorem satisfied_congr_key [SetOrder] {a b : PackageId} (h : a.key = b.key) :
    store.satisfied mode a = store.satisfied mode b := by
  ext c
  rw [mem_satisfied_iff_isSatisfied_resolve, mem_satisfied_iff_isSatisfied_resolve,
    resolve_congr_key h]

end AuditStore

end Vetting
