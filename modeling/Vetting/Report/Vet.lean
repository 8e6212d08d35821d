import Vetting.Report.Basic
import Vetting.Warning

/-! The vet of a dependency graph: what is required of every package is compared with
what the store satisfies. -/

namespace Vetting

namespace AuditStore

variable {model : CriteriaModel} (store : AuditStore model) (mode : ExemptionMode)

def explain [SetOrder] (id : PackageId) (criterion : String) : FailureReason :=
  match store.resolve mode id criterion with
  | .vetoed vs => .violation vs
  | _ =>
    if mode ≠ .allow ∧ criterion ∈ store.satisfied .allow id then .exemptionExcluded
    else .noAuditPath

/-- Whether a path is nothing but one exemption. -/
def isBareExemption : List AuditRecord → Bool
  | [r] => r.isExemption
  | _ => false

/-- How a version came to satisfy what is required of it. -/
def classify [SetOrder] (id : PackageId) (required : NameSet) : VettingStatus :=
  if required.within (store.satisfied .deny id) then .fully
  else if required.toList.all fun c => isBareExemption (store.resolve mode id c).path then
    .withExemptions
  else .partially

def judge [SetOrder] (id : PackageId) (required : NameSet) : Verdict :=
  let satisfied := store.satisfied mode id
  let failures := (required \ satisfied).toList.map fun c => ⟨c, store.explain mode id c⟩
  { id, required, satisfied, failures,
    status := if failures.isEmpty then store.classify mode id required else .unvetted }

/-- The report on a graph for which the requirements are known. -/
def report [SetOrder] (g : DependencyGraph) (requirements : Requirements) : Report where
  verdicts := g.thirdParty.map fun id => store.judge mode id (requirements.of id.key)
  firstParty := g.firstParty.map PackageNode.id
  conflicts := store.conflictsIn g.packages
  rejected := store.rejected
  mode := mode

/-- Requirements under a mode of what exemptions count. -/
def propagator [SetOrder] (policies : PolicyTable) : Propagator :=
  { model, policies, evidence := some (store.evidence mode) }

/-- Vet a dependency graph. Fails on an unknown criterion in the policies or on a cycle. -/
def vet [SetOrder] (g : DependencyGraph) (policies : PolicyTable) : Except Fault Report := do
  liftCriteria (policies.check model)
  let requirements ← (store.propagator mode policies).propagate g
  pure (store.report mode g requirements)

/-- Vet a dependency graph, and warn of ignored policies and of conflicts. -/
def vetLogged [SetOrder] (g : DependencyGraph) (policies : PolicyTable) : Logged Report := do
  policies.validate model (some g)
  let requirements ← Logged.lift ((store.propagator mode policies).propagate g)
  let report := store.report mode g requirements
  Logged.warn (report.conflicts.map .conflict)
  pure report

end AuditStore

end Vetting
