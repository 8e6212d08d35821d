import Vetting.Requirement
import Vetting.Resolution.Session

/-! Requirements by way of a session. The records behind a criterion are those of the path that the
session finds when requirements get to the package, so that what it was asked before may show. -/

namespace Vetting

/-- Whether a package passes on what is required of it: a third-party package, to another one. -/
def DependencyGraph.passesOn (g : DependencyGraph) (id : PackageId) : Bool :=
  !g.isFirstParty id.key && (g.dependencies id.key).any fun e => !g.isFirstParty e.child.key

namespace Session

variable {model : CriteriaModel} {store : AuditStore model}

/-- The paths that some criteria of a version are satisfied by, asked for one after the other. -/
def pathsOf [SetOrder] (s : Session store) (id : PackageId) :
    List String → List (String × List AuditRecord) × Session store
  | [] => ([], s)
  | c :: cs =>
    let (r, s) := s.resolve id c
    let (paths, s) := s.pathsOf id cs
    ((c, r.path) :: paths, s)

/-- Go through packages in order, adding what each of them passes on by the paths found for it. -/
def sendAll [SetOrder] (policies : PolicyTable) (g : DependencyGraph) (s : Session store)
    (sent : List Transmission) :
    List PackageId → Except CriteriaFault (List Transmission × Session store)
  | [] => .ok (sent, s)
  | v :: vs => do
    let required := Requirements.sumFor sent v.key
    let (paths, s) := if g.passesOn v then s.pathsOf v required.toList else ([], s)
    let p : Propagator :=
      { model, policies, evidence := some fun _ c => (paths.lookup c).getD [] }
    let more ← p.sendOver g v required (g.dependencies v.key)
    sendAll policies g s (sent ++ more) vs

/-- Propagate requirements through a graph, and keep what the session came to know. -/
def propagate [SetOrder] (s : Session store) (policies : PolicyTable) (g : DependencyGraph) :
    Except Fault (Requirements × Session store) := do
  let order ← g.topological
  let (sent, s) ← liftCriteria (sendAll policies g s [] order)
  pure ({ order, sent }, s)

end Session

end Vetting
