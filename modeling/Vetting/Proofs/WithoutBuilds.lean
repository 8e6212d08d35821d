import Vetting.Resolution.Basic

/-! Records, audit graphs and resolutions as they are without build metadata. All that is done
with a record is done with its bare form alike, and gives the bare form of what it gave. -/

namespace Vetting

theorem distinctOn_map {α β κ : Type} [DecidableEq κ] (f : α → β) (key : β → κ) (l : List α) :
    distinctOn key (l.map f) = (distinctOn (fun a => key (f a)) l).map f := by
  induction l with
  | nil => rfl
  | cons a as ih =>
    rw [List.map_cons, distinctOn, ih, distinctOn, List.map_cons, List.filter_map]
    rfl

namespace Graph

variable {ν σ τ : Type}

/-- An edge between the same vertices, with another label. -/
def Edge.relabel (f : σ → τ) (e : Edge ν σ) : Edge ν τ := ⟨e.source, e.target, f e.label⟩

variable [DecidableEq ν] (f : σ → τ) (edges tree : List (Edge ν σ)) (v : ν)

theorem firstPerTarget_relabel : firstPerTarget (edges.map (Edge.relabel f)) v =
    (firstPerTarget edges v).map (Edge.relabel f) := by
  rw [firstPerTarget, List.filter_map, distinctOn_map]
  rfl

theorem avoiding_relabel (found : List (Edge ν σ)) :
    avoiding (edges.map (Edge.relabel f)) (found.map (Edge.relabel f)) =
      (avoiding edges found).map (Edge.relabel f) := by
  have htargets : (found.map (Edge.relabel f)).map Edge.target = found.map Edge.target :=
    List.map_map
  rw [avoiding, htargets, List.filter_map]
  rfl

theorem explore_relabel (queue : List ν) : explore (edges.map (Edge.relabel f)) queue =
    (explore edges queue).map (Edge.relabel f) := by
  fun_induction explore edges queue with
  | case1 edges => rw [explore, List.map_nil]
  | case2 edges v queue found ih =>
    have htargets : (found.map (Edge.relabel f)).map Edge.target = found.map Edge.target :=
      List.map_map
    rw [explore, firstPerTarget_relabel, avoiding_relabel, htargets, ih, List.map_append]

theorem search_relabel (root : ν) : search (edges.map (Edge.relabel f)) root =
    (search edges root).map (Edge.relabel f) := by
  rw [search, List.filter_map, explore_relabel]
  rfl

theorem reaches_relabel : reaches (tree.map (Edge.relabel f)) v = reaches tree v := List.any_map

theorem pathBack_relabel : pathBack (tree.map (Edge.relabel f)) v =
    (pathBack tree v).map (Edge.relabel f) := by
  induction tree generalizing v with
  | nil => rfl
  | cons e earlier ih =>
    simp only [List.map_cons, pathBack, Edge.relabel]
    split
    · rw [List.map_cons, ih]
      rfl
    · exact ih v

theorem pathTo_relabel : pathTo (tree.map (Edge.relabel f)) v =
    (pathTo tree v).map (Edge.relabel f) := by
  rw [pathTo, ← List.map_reverse, pathBack_relabel, ← List.map_reverse, pathTo]

end Graph

/-- A version without its build metadata. -/
def Version.bare (v : Version) : Version := { v with build := "" }

@[simp] theorem Version.toRelease_bare (v : Version) : v.bare.toRelease = v.toRelease := rfl

theorem Version.sort_bare (vs : List Version) :
    Version.sort (vs.map Version.bare) = (Version.sort vs).map Version.bare :=
  (map_sortBy Version.bare (fun a b => a.toRelease.precedes b.toRelease) vs).symm

/-- How a set is gone through depends on the releases in it, whatever their builds. -/
theorem Version.sortedSet_bare [SetOrder] (package : String) (vs : List Version) :
    Version.sortedSet package (vs.map Version.bare) =
      (Version.sortedSet package vs).map Version.bare := by
  have hmet : distinctOn Version.toRelease (vs.map Version.bare) =
      (distinctOn Version.toRelease vs).map Version.bare := distinctOn_map ..
  have hreleases : ((distinctOn Version.toRelease vs).map Version.bare).map Version.toRelease =
      (distinctOn Version.toRelease vs).map Version.toRelease := by
    rw [List.map_map]
    rfl
  rw [Version.sortedSet, hmet, hreleases, Version.sortedSet, ← Version.sort_bare]
  exact congrArg Version.sort (map_sortBy Version.bare (fun a b =>
    SetOrder.before package ((distinctOn Version.toRelease vs).map Version.toRelease) a.toRelease
      b.toRelease) _).symm

def PackageId.bare (id : PackageId) : PackageId := { id with version := id.version.bare }

@[simp] theorem PackageId.key_bare (id : PackageId) : id.bare.key = id.key := rfl

theorem PackageId.sort_bare (ids : List PackageId) :
    PackageId.sort (ids.map PackageId.bare) = (PackageId.sort ids).map PackageId.bare :=
  (map_sortBy PackageId.bare PackageId.precedes ids).symm

-- The bounds of a range are releases. Its text may show their builds, and `text` is what is
-- looked at of it.
variable (text : String → String)

def VersionRange.bare (range : VersionRange) : VersionRange := { range with raw := text range.raw }

def Violation.bare (v : Violation) : Violation := { v with versions := v.versions.bare text }

namespace AuditRecord

/-- A record as it is without the build metadata of its versions. -/
def bare : AuditRecord → AuditRecord
  | full a => full { a with version := a.version.bare }
  | delta a => delta { a with start := a.start.bare, target := a.target.bare }
  | exemption e => exemption { e with version := e.version.bare }
  | grant g => grant { g with versions := g.versions.bare text }
  | violation v => violation (v.bare text)

variable (r : AuditRecord)

@[simp] theorem package_bare : (r.bare text).package = r.package := by cases r <;> rfl

@[simp] theorem criteria_bare : (r.bare text).criteria = r.criteria := by cases r <;> rfl

@[simp] theorem dependencyCriteria_bare :
    (r.bare text).dependencyCriteria = r.dependencyCriteria := by cases r <;> rfl

@[simp] theorem versions_bare : (r.bare text).versions = r.versions.map Version.bare := by
  cases r <;> rfl

@[simp] theorem target?_bare : (r.bare text).target? = r.target?.map Version.bare := by
  cases r <;> rfl

@[simp] theorem violation?_bare :
    (r.bare text).violation? = r.violation?.map (Violation.bare text) := by cases r <;> rfl

@[simp] theorem isExemption_bare : (r.bare text).isExemption = r.isExemption := by cases r <;> rfl

@[simp] theorem isLoop_bare : (r.bare text).isLoop = r.isLoop := by cases r <;> rfl

@[simp] theorem admits_bare (mode : ExemptionMode) : mode.admits (r.bare text) = mode.admits r := by
  cases mode <;> cases r <;> rfl

theorem fault?_bare (model : CriteriaModel) (filed : String) :
    (r.bare text).fault? model filed = r.fault? model filed := by
  have hdependencies : (r.bare text).dependencyFault? model = r.dependencyFault? model := by
    rw [dependencyFault?, dependencyCriteria_bare, dependencyFault?]
  simp only [fault?, package_bare, criteria_bare, isLoop_bare, hdependencies]

end AuditRecord

namespace AuditGraph

@[simp] theorem package_build [SetOrder] {model : CriteriaModel} (store : AuditStore model)
    (package : String) (more : List Version) : (build store package more).package = package := rfl

theorem edgesOf_bare (versions : List Version) (r : AuditRecord) :
    edgesOf (versions.map Version.bare) (r.bare text) =
      (edgesOf versions r).map (Graph.Edge.relabel (AuditRecord.bare text)) := by
  cases r with
  | grant g =>
    simp only [AuditRecord.bare, edgesOf, List.filter_map, List.map_map]
    rfl
  | _ => rfl

end AuditGraph

/-- What is found of a criterion, the records behind it being bare. -/
def Resolution.bare : Resolution → Resolution
  | vetoed vs => vetoed (vs.map (Violation.bare text))
  | satisfied path => satisfied (path.map (AuditRecord.bare text))
  | unreached => unreached

theorem Resolution.path_bare (r : Resolution) :
    (r.bare text).path = r.path.map (AuditRecord.bare text) := by cases r <;> rfl

def RejectedRecord.bare (r : RejectedRecord) : RejectedRecord :=
  { r with record := r.record.bare text }

namespace AuditStore

variable {model : CriteriaModel} (store : AuditStore model) (mode : ExemptionMode)
  (package criterion : String) (release : Release) (id : PackageId)

/-- A store of the same records without build metadata. -/
def bare : AuditStore model where
  accepted := store.accepted.map (AuditRecord.bare text)
  rejected := store.rejected.map (RejectedRecord.bare text)
  valid := fun r hr => by
    obtain ⟨a, ha, rfl⟩ := List.mem_map.1 hr
    rw [AuditRecord.fault?_bare, AuditRecord.package_bare]
    exact store.valid a ha

theorem ofRecords_bare (records : List AuditRecord) :
    ofRecords model (records.map (AuditRecord.bare text)) =
      (ofRecords model records).bare text := by
  have hfiled : (records.map (AuditRecord.bare text)).map (fun r => (r.package, r)) =
      (records.map fun r => (r.package, r)).map (Prod.map id (AuditRecord.bare text)) := by
    simp [List.map_map, Function.comp_def]
  have haccept : ∀ f, accept? model (Prod.map id (AuditRecord.bare text) f) =
      (accept? model f).map (AuditRecord.bare text) := by
    intro f
    simp only [accept?, Prod.map_fst, Prod.map_snd, id, AuditRecord.fault?_bare]
    split <;> rfl
  have hreject : ∀ f, reject? model (Prod.map id (AuditRecord.bare text) f) =
      (reject? model f).map (RejectedRecord.bare text) := by
    intro f
    simp only [reject?, Prod.map_fst, Prod.map_snd, id, AuditRecord.fault?_bare, Option.map_map]
    rfl
  have hsort : sortBy (fun a b => decide (a.1 < b.1)) ((records.map fun r => (r.package, r)).map
      (Prod.map id (AuditRecord.bare text))) = (sortBy (fun a b => decide (a.1 < b.1))
        (records.map fun r => (r.package, r))).map (Prod.map id (AuditRecord.bare text)) :=
    (map_sortBy (Prod.map id (AuditRecord.bare text)) _ _).symm
  simp only [ofRecords, ofFiled, bare, hfiled, hsort, List.filterMap_map, Function.comp_def,
    haccept, hreject, List.map_filterMap]

theorem recordsFor_bare : (store.bare text).recordsFor package =
    (store.recordsFor package).map (AuditRecord.bare text) := by
  rw [recordsFor, bare, List.filter_map, recordsFor]
  simp [Function.comp_def]

theorem violationsFor_bare : (store.bare text).violationsFor package =
    (store.violationsFor package).map (Violation.bare text) := by
  rw [violationsFor, recordsFor_bare, List.filterMap_map, violationsFor, List.map_filterMap]
  exact congrArg (fun f => (store.recordsFor package).filterMap f)
    (funext fun r => r.violation?_bare text)

theorem blocking_bare : (store.bare text).blocking package release criterion =
    (store.blocking package release criterion).map (Violation.bare text) := by
  rw [blocking, violationsFor_bare, List.filter_map, blocking]
  rfl

theorem known_bare [SetOrder] (more : List Version) :
    AuditGraph.known (store.bare text) package (more.map Version.bare) =
      (AuditGraph.known store package more).map Version.bare := by
  have hversions : ((store.bare text).recordsFor package).flatMap AuditRecord.versions =
      ((store.recordsFor package).flatMap AuditRecord.versions).map Version.bare := by
    rw [recordsFor_bare, List.flatMap_map, List.map_flatMap]
    simp
  rw [AuditGraph.known, hversions, ← List.map_append, Version.sortedSet_bare, AuditGraph.known]

theorem edges_build_bare [SetOrder] (more : List Version) :
    (AuditGraph.build (store.bare text) package (more.map Version.bare)).edges =
      (AuditGraph.build store package more).edges.map
        (Graph.Edge.relabel (AuditRecord.bare text)) := by
  simp only [AuditGraph.build, known_bare, recordsFor_bare, List.flatMap_map, List.map_flatMap,
    AuditGraph.edgesOf_bare]

theorem searchFor_bare [SetOrder] (more : List Version) :
    (AuditGraph.build (store.bare text) package (more.map Version.bare)).searchFor model mode
      criterion = ((AuditGraph.build store package more).searchFor model mode criterion).map
        (Graph.Edge.relabel (AuditRecord.bare text)) := by
  simp only [AuditGraph.searchFor, AuditGraph.search, AuditGraph.searchBy, AuditGraph.passing]
  rw [edges_build_bare, List.filter_map, ← Graph.search_relabel]
  simp [Function.comp_def, Graph.Edge.relabel]

/-- Builds decide nothing of what a criterion resolves to, nor which records it is owed to. -/
theorem resolve_bare [SetOrder] : (store.bare text).resolve mode id.bare criterion =
    (store.resolve mode id criterion).bare text := by
  have hsearch := searchFor_bare text store mode id.package criterion [id.version]
  have hblocking := blocking_bare text store id.package criterion id.version.toRelease
  simp only [List.map_cons, List.map_nil] at hsearch
  simp only [resolve, resolveIn, PackageId.bare, AuditGraph.package_build, Version.toRelease_bare,
    hsearch, hblocking, Graph.reaches_relabel, Graph.pathTo_relabel]
  cases store.blocking id.package id.version.toRelease criterion with
  | cons v vs => rfl
  | nil =>
    simp only [List.map_nil]
    split
    · simp only [Resolution.bare, List.map_map]
      rfl
    · rfl

theorem satisfied_bare [SetOrder] :
    (store.bare text).satisfied mode id.bare = store.satisfied mode id := by
  ext c
  rw [mem_satisfied_iff_isSatisfied_resolve, mem_satisfied_iff_isSatisfied_resolve, resolve_bare]
  cases store.resolve mode id c <;> rfl

end AuditStore

end Vetting
