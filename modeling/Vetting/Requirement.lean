import Vetting.Dependency.Order
import Vetting.Policy
import Vetting.Resolution.Basic

/-! What is required of every package. First-party packages require what their policies
say; every other package passes on what is required of it, unless the records that it
owes a criterion to name other criteria for the dependency. -/

namespace Vetting

/-- The records that a package satisfies a criterion by. -/
abbrev Evidence := PackageId → String → List AuditRecord

/-- The evidence in a store: the records along the audit path. -/
def AuditStore.evidence [SetOrder] {model : CriteriaModel} (store : AuditStore model)
    (mode : ExemptionMode) : Evidence := fun id criterion => (store.resolve mode id criterion).path

/-- What is required where, and how records make it known. -/
structure Propagator where
  model : CriteriaModel
  policies : PolicyTable
  evidence : Option Evidence

structure Transmission where
  parent : PackageId
  child : PackageKey
  criteria : NameSet

/-- The packages in the order in which requirements went through them, and what each of
them passed on. -/
structure Requirements where
  order : List PackageId
  sent : List Transmission

namespace Requirements

def sumFor (sent : List Transmission) (key : PackageKey) : NameSet :=
  .unions ((sent.filter fun t => t.child = key).map Transmission.criteria)

theorem mem_sumFor {sent : List Transmission} {key : PackageKey} {c : String} :
    c ∈ sumFor sent key ↔ ∃ t ∈ sent, t.child = key ∧ c ∈ t.criteria := by
  rw [sumFor, NameSet.mem_unions]
  constructor
  · rintro ⟨s, hs, hc⟩
    obtain ⟨t, ht, rfl⟩ := List.mem_map.1 hs
    exact ⟨t, (List.mem_filter.1 ht).1, by simpa using (List.mem_filter.1 ht).2, hc⟩
  · rintro ⟨t, ht, rfl, hc⟩
    exact ⟨t.criteria, List.mem_map_of_mem (List.mem_filter.2 ⟨ht, by simp⟩), hc⟩

variable (r : Requirements)

def of (key : PackageKey) : NameSet := sumFor r.sent key

/-- The packages that require something of a package, each with what it requires. -/
def sourcesOf (key : PackageKey) : List (PackageId × NameSet) :=
  (distinctOn (fun t => t.parent.key) (r.sent.filter fun t => t.child = key)).map fun t =>
    (t.parent, sumFor (r.sent.filter fun u => u.parent.key = t.parent.key) key)

end Requirements

namespace Propagator

variable (p : Propagator)

/-- The criteria that records ask of a dependency, if any of them names it. -/
def asked? (records : List AuditRecord) (dependency : String) : Option NameSet :=
  match records.filterMap fun r => r.dependencyCriteria.get? dependency with
  | [] => none
  | sets => some (.unions sets)

/-- What the records behind one criterion ask of a dependency in place of it. -/
def override? (parent : PackageId) (criterion dependency : String) : Option NameSet :=
  p.evidence.bind fun evidence => asked? (evidence parent criterion) dependency

/-- What a third-party package passes on of the criteria that are required of it. -/
def passedOn (parent : PackageId) (dependency : String) (kind : DependencyKind)
    (required : NameSet) : NameSet :=
  let replaced := required.toList.filterMap fun c => p.override? parent c dependency
  let kept := required.filter fun c => (p.override? parent c dependency).isNone
  .unions replaced ∪ if kind.isRunTier then p.model.downgrade kept else kept

/-- What a package passes on to a dependency when some criteria are required of it. -/
def owed (g : DependencyGraph) (parent child : PackageId) (kind : DependencyKind)
    (required : NameSet) : NameSet :=
  if g.isFirstParty parent.key then p.policies.requiredOf parent.package child.package kind
  else p.passedOn parent child.package kind required

/-- What a package passes on, where every criterion that has to be looked up is known. -/
def transmitted (g : DependencyGraph) (parent child : PackageId) (kind : DependencyKind)
    (required : NameSet) : Except CriteriaFault NameSet := do
  if !g.isFirstParty parent.key && (p.evidence.isSome || kind.isRunTier) then
    p.model.checkAll required.toList
  pure (p.owed g parent child kind required)

/-- Pass on over some edges what is required of their parent. -/
def sendOver (g : DependencyGraph) (parent : PackageId) (required : NameSet) :
    List Dependency → Except CriteriaFault (List Transmission)
  | [] => .ok []
  | e :: es => do
    -- Nothing is ever required of first-party packages.
    if g.isFirstParty e.child.key then sendOver g parent required es
    else
      let criteria ← p.transmitted g parent e.child e.kind required
      let rest ← sendOver g parent required es
      pure (if criteria.isEmpty then rest else ⟨parent, e.child.key, criteria⟩ :: rest)

/-- Go through packages in order, adding what each of them passes on. -/
def sendAll (g : DependencyGraph) (sent : List Transmission) :
    List PackageId → Except CriteriaFault (List Transmission)
  | [] => .ok sent
  | v :: vs => do
    let more ← p.sendOver g v (Requirements.sumFor sent v.key) (g.dependencies v.key)
    sendAll g (sent ++ more) vs

def propagate (g : DependencyGraph) : Except Fault Requirements := do
  let order ← g.topological
  let sent ← liftCriteria (p.sendAll g [] order)
  pure { order, sent }

end Propagator

end Vetting
