import Vetting.Audit.Graph
import Vetting.Fault

/-! Resolution: whether a version satisfies a criterion. A violation that denies what
the criterion implies vetoes it; otherwise there has to be a path of records from the
root, each of which claims something that implies it. -/

namespace Vetting

inductive Resolution where
  | vetoed (violations : List Violation)
  | satisfied (path : List AuditRecord)
  | unreached
deriving Inhabited

namespace Resolution

def isSatisfied : Resolution → Bool
  | satisfied _ => true
  | _ => false

def isVetoed : Resolution → Bool
  | vetoed _ => true
  | _ => false

def violations : Resolution → List Violation
  | vetoed vs => vs
  | _ => []

/-- The records along the path from the root; none unless the criterion is satisfied. -/
def path : Resolution → List AuditRecord
  | satisfied p => p
  | _ => []

def usesExemption (r : Resolution) : Bool := r.path.any AuditRecord.isExemption

end Resolution

def AuditGraph.searchFor (graph : AuditGraph) (model : CriteriaModel) (mode : ExemptionMode)
    (criterion : String) : List AuditEdge :=
  graph.search (model.satisfiers criterion) mode.admits

namespace AuditStore

variable {model : CriteriaModel} (store : AuditStore model) (mode : ExemptionMode)

/-- Resolve a criterion over an audit graph that has the release. -/
def resolveIn (graph : AuditGraph) (release : Release) (criterion : String) : Resolution :=
  match store.blocking graph.package release criterion with
  | v :: vs => .vetoed (v :: vs)
  | [] =>
    let tree := graph.searchFor model mode criterion
    if Graph.reaches tree (some release) then
      .satisfied ((Graph.pathTo tree (some release)).map Graph.Edge.label)
    else .unreached

/-- Every criterion that a release satisfies, over an audit graph that has it. -/
def satisfiedIn (graph : AuditGraph) (release : Release) : NameSet :=
  model.names.filter fun c =>
    (store.blocking graph.package release c).isEmpty &&
      Graph.reaches (graph.searchFor model mode c) (some release)

theorem mem_satisfiedIn {graph : AuditGraph} {release : Release} {c : String} :
    c ∈ store.satisfiedIn mode graph release ↔ c ∈ model ∧
      store.blocking graph.package release c = [] ∧
        Graph.reaches (graph.searchFor model mode c) (some release) = true := by
  rw [satisfiedIn, NameSet.mem_filter, Bool.and_eq_true, List.isEmpty_iff]
  rfl

theorem isSatisfied_resolveIn_iff {graph : AuditGraph} {release : Release} {c : String} :
    (store.resolveIn mode graph release c).isSatisfied = true ↔
      store.blocking graph.package release c = [] ∧
        Graph.reaches (graph.searchFor model mode c) (some release) = true := by
  unfold resolveIn
  split
  · next v vs h => simp [h, Resolution.isSatisfied]
  · next h =>
    simp only [h, true_and]
    split
    · next hr => simp [Resolution.isSatisfied, hr]
    · next hr => simp [Resolution.isSatisfied, hr]

def resolve [SetOrder] (id : PackageId) (criterion : String) : Resolution :=
  store.resolveIn mode (AuditGraph.build store id.package [id.version]) id.version.toRelease
    criterion

def satisfied [SetOrder] (id : PackageId) : NameSet :=
  store.satisfiedIn mode (AuditGraph.build store id.package [id.version]) id.version.toRelease

/-- Asking for all criteria at once answers as asking for each of them does. -/
theorem mem_satisfied_iff_isSatisfied_resolve [SetOrder] {id : PackageId} {c : String} :
    c ∈ store.satisfied mode id ↔ c ∈ model ∧ (store.resolve mode id c).isSatisfied = true := by
  rw [satisfied, resolve, mem_satisfiedIn, isSatisfied_resolveIn_iff]

end AuditStore

end Vetting
