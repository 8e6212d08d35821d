import Vetting.Proofs.Walk
import Vetting.Resolution.Basic

/-! Chains of audit records: what it means that records vouch for a release. The walks of an
audit graph from its root are such chains, and every chain is the label of a walk. -/

namespace Vetting

namespace AuditRecord

/-- Whether a record vouches for a release and presumes no other one. -/
def Vouches (r : AuditRecord) (v : Release) : Prop :=
  match r with
  | full a => a.version.toRelease = v
  | exemption e => e.version.toRelease = v
  | grant g => g.versions.contains v = true
  | _ => False

/-- Whether a record vouches for the change from one release to another. -/
def Leads (r : AuditRecord) (u v : Release) : Prop :=
  match r with
  | delta a => a.start.toRelease = u ∧ a.target.toRelease = v
  | _ => False

/-- A change starts at a release that its record names. -/
theorem Leads.mem_versions {r : AuditRecord} {u v : Release} (h : r.Leads u v) :
    u ∈ r.versions.map Version.toRelease := by
  cases r with
  | delta a => exact h.1 ▸ List.mem_cons_self ..
  | full a => exact h.elim
  | exemption x => exact h.elim
  | grant g => exact h.elim
  | violation x => exact h.elim

theorem isEmpty_unknownIn_iff {m : CriteriaModel} {s : NameSet} :
    (m.unknownIn s).isEmpty = true ↔ ∀ c ∈ s, c ∈ m := by
  simp [NameSet.isEmpty_iff, CriteriaModel.unknownIn]

theorem dependencyFault?_eq_none_iff {m : CriteriaModel} {r : AuditRecord} :
    r.dependencyFault? m = none ↔ ∀ e ∈ r.dependencyCriteria.entries, ∀ c ∈ e.2, c ∈ m := by
  rw [dependencyFault?, List.findSome?_eq_none_iff]
  simp [isEmpty_unknownIn_iff]

/-- Nothing is wrong with a record that is filed where it belongs, claims known criteria and some,
presumes known ones of dependencies, and is no change from a version to itself. -/
theorem fault?_eq_none_iff {m : CriteriaModel} {r : AuditRecord} {filed : String} :
    r.fault? m filed = none ↔ r.package = filed ∧ (∃ c, c ∈ r.criteria) ∧
      (∀ c ∈ r.criteria, c ∈ m) ∧ r.dependencyFault? m = none ∧ r.isLoop = false := by
  rw [← isEmpty_unknownIn_iff, ← NameSet.isEmpty_eq_false_iff, fault?]
  by_cases hfiled : r.package = filed
  · cases r.criteria.isEmpty with
    | true => simp [hfiled]
    | false =>
      cases (m.unknownIn r.criteria).isEmpty with
      | false => simp [hfiled]
      | true =>
        cases r.dependencyFault? m with
        | some fault => simp [hfiled]
        | none => simp [hfiled]
  · simp [hfiled]

end AuditRecord

namespace AuditStore

variable {model : CriteriaModel}

/-- Whether a record counts for a criterion of a package: it is accepted, the mode admits it,
and it carries a criterion that implies the one asked for. -/
structure Counts (store : AuditStore model) (mode : ExemptionMode) (package criterion : String)
    (r : AuditRecord) : Prop where
  accepted : r ∈ store.accepted
  filed : r.package = package
  admitted : mode.admits r = true
  implies : ∃ d ∈ r.criteria, criterion ∈ model.closure d

/-- Records that count and vouch for a release: for one on its own first, and then for each
change on the way. -/
inductive Chain (store : AuditStore model) (mode : ExemptionMode) (package criterion : String) :
    List AuditRecord → Release → Prop
  | vouched {r : AuditRecord} {v : Release} (counts : store.Counts mode package criterion r)
      (vouches : r.Vouches v) : Chain store mode package criterion [r] v
  | led {chain : List AuditRecord} {r : AuditRecord} {u v : Release}
      (before : Chain store mode package criterion chain u)
      (counts : store.Counts mode package criterion r) (leads : r.Leads u v) :
      Chain store mode package criterion (chain ++ [r]) v

variable {store : AuditStore model} {mode : ExemptionMode} {package criterion : String}
  {r : AuditRecord} {u v : Release} {chain : List AuditRecord}

theorem Chain.ne_nil (h : store.Chain mode package criterion chain v) : chain ≠ [] := by
  cases h with
  | vouched => simp
  | led => simp

theorem Chain.counts_of_mem (h : store.Chain mode package criterion chain v) (hr : r ∈ chain) :
    store.Counts mode package criterion r := by
  induction h with
  | vouched counts =>
    rw [List.mem_singleton.1 hr]
    exact counts
  | led _ counts _ ih =>
    rcases List.mem_append.1 hr with hr | hr
    · exact ih hr
    · rw [List.mem_singleton.1 hr]
      exact counts

theorem Chain.imp {store' : AuditStore model} {mode' : ExemptionMode} {criterion' : String}
    (h : store.Chain mode package criterion chain v)
    (hcounts : ∀ r, store.Counts mode package criterion r →
      store'.Counts mode' package criterion' r) :
    store'.Chain mode' package criterion' chain v := by
  induction h with
  | vouched counts vouches => exact .vouched (hcounts _ counts) vouches
  | led _ counts leads ih => exact .led ih (hcounts _ counts) leads

theorem known_of_mem_accepted (hr : r ∈ store.accepted) {c : String} (hc : c ∈ r.criteria) :
    c ∈ model := by
  obtain ⟨_, _, hknown, _⟩ := AuditRecord.fault?_eq_none_iff.1 (store.valid r hr)
  exact hknown c hc

theorem counts_iff : store.Counts mode package criterion r ↔
    r ∈ store.recordsFor package ∧ r.criteria.meets (model.satisfiers criterion) = true ∧
      mode.admits r = true := by
  rw [mem_recordsFor, NameSet.meets_iff]
  constructor
  · intro hx
    obtain ⟨haccepted, hfiled, hadmitted, d, hd, hc⟩ := hx
    have hknown := known_of_mem_accepted haccepted hd
    exact ⟨⟨haccepted, hfiled⟩, ⟨d, hd, model.mem_satisfiers.2 ⟨hknown, hc⟩⟩, hadmitted⟩
  · intro hx
    obtain ⟨⟨haccepted, hfiled⟩, ⟨d, hd, hc⟩, hadmitted⟩ := hx
    exact ⟨haccepted, hfiled, hadmitted, d, hd, (model.mem_satisfiers.1 hc).2⟩

end AuditStore

namespace AuditGraph

variable {model : CriteriaModel} {store : AuditStore model} {mode : ExemptionMode}
  {package criterion : String} {more versions : List Version} {r : AuditRecord} {u v : Release}

theorem mem_edgesOf {e : AuditEdge} (he : e ∈ edgesOf versions r) :
    e.label = r ∧ ∃ v, e.target = some v ∧
      ((e.source = none ∧ r.Vouches v) ∨ ∃ u, e.source = some u ∧ r.Leads u v) := by
  cases r with
  | full a =>
    obtain rfl := List.mem_singleton.1 he
    exact ⟨rfl, _, rfl, .inl ⟨rfl, rfl⟩⟩
  | delta a =>
    obtain rfl := List.mem_singleton.1 he
    exact ⟨rfl, _, rfl, .inr ⟨_, rfl, rfl, rfl⟩⟩
  | exemption x =>
    obtain rfl := List.mem_singleton.1 he
    exact ⟨rfl, _, rfl, .inl ⟨rfl, rfl⟩⟩
  | grant g =>
    obtain ⟨w, hw, rfl⟩ := List.mem_map.1 he
    exact ⟨rfl, _, rfl, .inl ⟨rfl, (List.mem_filter.1 hw).2⟩⟩
  | violation x => cases he

theorem edge_mem_of_vouches (h : r.Vouches v) (hv : v ∈ versions.map Version.toRelease) :
    ⟨none, some v, r⟩ ∈ edgesOf versions r := by
  cases r with
  | full a => exact h ▸ List.mem_singleton.2 rfl
  | exemption x => exact h ▸ List.mem_singleton.2 rfl
  | grant g =>
    obtain ⟨w, hw, rfl⟩ := List.mem_map.1 hv
    exact List.mem_map.2 ⟨w, List.mem_filter.2 ⟨hw, h⟩, rfl⟩
  | delta a => exact h.elim
  | violation x => exact h.elim

theorem edge_mem_of_leads (h : r.Leads u v) : ⟨some u, some v, r⟩ ∈ edgesOf versions r := by
  cases r with
  | delta a =>
    obtain ⟨rfl, rfl⟩ := h
    exact List.mem_singleton.2 rfl
  | full a => exact h.elim
  | exemption x => exact h.elim
  | grant g => exact h.elim
  | violation x => exact h.elim

theorem mem_map_known [SetOrder] :
    v ∈ (known store package more).map Version.toRelease ↔
      (∃ r ∈ store.recordsFor package, v ∈ r.versions.map Version.toRelease) ∨
        v ∈ more.map Version.toRelease := by
  rw [known, Version.mem_map_sortedSet, List.map_append, List.mem_append, List.map_flatMap,
    List.mem_flatMap]

/-- The edges of an audit graph that a search for a criterion may take. -/
def edgesFor (graph : AuditGraph) (model : CriteriaModel) (mode : ExemptionMode)
    (criterion : String) : List AuditEdge :=
  graph.edges.filter fun e =>
    e.label.criteria.meets (model.satisfiers criterion) && mode.admits e.label

theorem mem_edgesFor_build [SetOrder] {e : AuditEdge} :
    e ∈ (build store package more).edgesFor model mode criterion ↔
      e ∈ edgesOf (known store package more) e.label ∧
        store.Counts mode package criterion e.label := by
  rw [edgesFor, List.mem_filter, Bool.and_eq_true, AuditStore.counts_iff]
  constructor
  · intro hx
    obtain ⟨he, hlabel⟩ := hx
    obtain ⟨r, hr, her⟩ := List.mem_flatMap.1 he
    obtain rfl := (mem_edgesOf her).1
    exact ⟨her, hr, hlabel⟩
  · intro hx
    obtain ⟨he, hr, hlabel⟩ := hx
    exact ⟨List.mem_flatMap.2 ⟨e.label, hr, he⟩, hlabel⟩

theorem target_ne_root [SetOrder] {e : AuditEdge}
    (he : e ∈ (build store package more).edgesFor model mode criterion) : e.target ≠ none := by
  obtain ⟨_, w, hw, _⟩ := mem_edgesOf (mem_edgesFor_build.1 he).1
  simp [hw]

/-- A walk from the root is empty or a chain for the release at its end. -/
theorem chain_of_walk [SetOrder] {p : List AuditEdge} {x : AuditVertex}
    (h : Graph.Walk ((build store package more).edgesFor model mode criterion) none p x) :
    (p = [] ∧ x = none) ∨ ∃ v, x = some v ∧
      store.Chain mode package criterion (p.map Graph.Edge.label) v := by
  induction h with
  | nil => exact .inl ⟨rfl, rfl⟩
  | @snoc p e before mem ih =>
    obtain ⟨hmem, hcounts⟩ := mem_edgesFor_build.1 mem
    obtain ⟨_, v, hv, hstep⟩ := mem_edgesOf hmem
    refine .inr ⟨v, hv, ?_⟩
    rw [List.map_append, List.map_singleton]
    -- An edge out of the root starts a chain, every other edge is a change that goes on with one.
    rcases ih with ⟨rfl, hroot⟩ | ⟨u, hu, hchain⟩
    · rcases hstep with ⟨_, hvouches⟩ | ⟨u, hu, _⟩
      · exact .vouched hcounts hvouches
      · exact absurd (hroot.symm.trans hu) (by simp)
    · rcases hstep with ⟨hroot, _⟩ | ⟨u', hu', hleads⟩
      · exact absurd (hroot.symm.trans hu) (by simp)
      · obtain rfl : u' = u := Option.some.inj (hu'.symm.trans hu)
        exact .led hchain hcounts hleads

/-- A chain for a release among the vertices labels a walk from the root. -/
theorem walk_of_chain [SetOrder] {chain : List AuditRecord}
    (h : store.Chain mode package criterion chain v)
    (hv : v ∈ (known store package more).map Version.toRelease) :
    ∃ p, p.map Graph.Edge.label = chain ∧
      Graph.Walk ((build store package more).edgesFor model mode criterion) none p (some v) := by
  induction h with
  | @vouched r v counts vouches =>
    refine ⟨[⟨none, some v, r⟩], rfl, ?_⟩
    have hedge := mem_edgesFor_build.2 ⟨edge_mem_of_vouches vouches hv, counts⟩
    exact Graph.Walk.edge hedge
  | @led chain r u v _ counts leads ih =>
    -- The release that the change starts at is a vertex as well.
    have hu : u ∈ (known store package more).map Version.toRelease := by
      have hr := AuditStore.mem_recordsFor.2 ⟨counts.accepted, counts.filed⟩
      exact mem_map_known.2 (.inl ⟨r, hr, leads.mem_versions⟩)
    obtain ⟨p, hp, hwalk⟩ := ih hu
    have hedge : (⟨some u, some v, r⟩ : AuditEdge) ∈
        (build store package more).edgesFor model mode criterion :=
      mem_edgesFor_build.2 ⟨edge_mem_of_leads leads, counts⟩
    refine ⟨p ++ [⟨some u, some v, r⟩], ?_, Graph.Walk.snoc hwalk hedge⟩
    rw [List.map_append, hp, List.map_singleton]

end AuditGraph

end Vetting
