import Vetting.Dependency.Graph

/-! Policies of first-party packages: the criteria that their direct dependencies have
to meet. Third-party packages have none. -/

namespace Vetting

/-- What a first-party package requires of its dependencies: of normal ones, of those that
only build or test it, and of single ones by name, which replaces both. -/
structure Policy where
  criteria : Option NameSet := none
  devCriteria : Option NameSet := none
  dependencyCriteria : NameMap NameSet := ∅
  notes : Json := .null
deriving Inhabited

namespace Policy

def requiredOf (p : Policy) (dependency : String) (kind : DependencyKind) (default : String) :
    NameSet :=
  match p.dependencyCriteria.get? dependency with
  | some names => names
  | none =>
    if kind.isRunTier then p.devCriteria.getD (.single safeToRun)
    else p.criteria.getD (.single default)

def named (p : Policy) : NameSet :=
  p.criteria.getD ∅ ∪ p.devCriteria.getD ∅ ∪ .unions (p.dependencyCriteria.entries.map (·.2))

end Policy

/-- Policies by package name, and the criterion that is required where they say nothing. -/
structure PolicyTable where
  policies : NameMap Policy := ∅
  default : String := safeToDeploy
deriving Inhabited

namespace PolicyTable

def policyOf (t : PolicyTable) (package : String) : Policy := (t.policies.get? package).getD {}

/-- The criteria that a first-party package requires of a dependency. -/
def requiredOf (t : PolicyTable) (parent dependency : String) (kind : DependencyKind) : NameSet :=
  (t.policyOf parent).requiredOf dependency kind t.default

/-- Fail on the first name of a policy that is no criterion. -/
def check (t : PolicyTable) (m : CriteriaModel) : Except CriteriaFault Unit := do
  m.check t.default "default-criteria"
  t.policies.entries.forM fun (package, p) => m.checkAll p.named.toList s!"policy for {package}"

/-- The packages with a policy that are not first-party in a graph. -/
def ignored (t : PolicyTable) (g : DependencyGraph) : NameSet :=
  t.policies.names \ NameSet.ofList (g.firstParty.map fun n => n.id.package)

end PolicyTable

end Vetting
