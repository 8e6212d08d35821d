import Vetting.Report.Vet
import Vetting.Resolution.Propagation

/-! The vet of a dependency graph by sessions that are kept. One session answers under the mode of
the vet; what a version satisfies with all exemptions, or with none, is asked of two others. -/

namespace Vetting

/-- The sessions of a vet: for its own mode, for all exemptions and for none. -/
structure Panel {model : CriteriaModel} (store : AuditStore model) where
  main : Session store
  lenient : Session store
  audited : Session store

namespace Panel

variable {model : CriteriaModel} {store : AuditStore model}

def start (store : AuditStore model) (mode : ExemptionMode) : Panel store where
  main := .start store mode
  lenient := .start store .allow
  audited := .start store .deny

def explain [SetOrder] (p : Panel store) (id : PackageId) (criterion : String) :
    FailureReason × Panel store :=
  let (r, s) := p.main.resolve id criterion
  let p := { p with main := s }
  match r with
  | .vetoed vs => (.violation vs, p)
  | _ =>
    if p.main.mode = .allow then (.noAuditPath, p)
    else
      let (names, s) := p.lenient.satisfied id
      (if criterion ∈ names then .exemptionExcluded else .noAuditPath, { p with lenient := s })

def explainEach [SetOrder] (p : Panel store) (id : PackageId) :
    List String → List Failure × Panel store
  | [] => ([], p)
  | c :: cs =>
    let (reason, p) := p.explain id c
    let (failures, p) := p.explainEach id cs
    (⟨c, reason⟩ :: failures, p)

/-- What a version satisfies without exemptions. A vet that counts none asks its own session. -/
def satisfiedAudited [SetOrder] (p : Panel store) (id : PackageId) : NameSet × Panel store :=
  if p.main.mode = .deny then
    let (names, s) := p.main.satisfied id
    (names, { p with main := s })
  else
    let (names, s) := p.audited.satisfied id
    (names, { p with audited := s })

def classify [SetOrder] (p : Panel store) (id : PackageId) (required : NameSet) :
    VettingStatus × Panel store :=
  if required.isEmpty then (.fully, p)
  else
    let (names, p) := p.satisfiedAudited id
    if required.within names then (.fully, p)
    else
      let (paths, s) := p.main.pathsOf id required.toList
      (if paths.all fun found => AuditStore.isBareExemption found.2 then .withExemptions
        else .partially, { p with main := s })

def judge [SetOrder] (p : Panel store) (id : PackageId) (required : NameSet) :
    Verdict × Panel store :=
  let (satisfied, s) := p.main.satisfied id
  let (failures, p) := { p with main := s }.explainEach id (required \ satisfied).toList
  let (status, p) := if failures.isEmpty then p.classify id required else (.unvetted, p)
  ({ id, required, satisfied, failures, status }, p)

def judgeEach [SetOrder] (p : Panel store) (requirements : Requirements) :
    List PackageId → List Verdict × Panel store
  | [] => ([], p)
  | id :: ids =>
    let (verdict, p) := p.judge id (requirements.of id.key)
    let (verdicts, p) := p.judgeEach requirements ids
    (verdict :: verdicts, p)

/-- Vet a dependency graph, and keep what the sessions came to know. All third-party packages are
looked at first, so that the main session learns nothing any more as it is asked about them. -/
def vet [SetOrder] (p : Panel store) (g : DependencyGraph) (policies : PolicyTable) :
    Except Fault (Report × Panel store) := do
  liftCriteria (policies.check model)
  let (requirements, main) ← (p.main.prime g.thirdParty).propagate policies g
  let (verdicts, p) := { p with main }.judgeEach requirements g.thirdParty
  pure ({ verdicts
          firstParty := g.firstParty.map PackageNode.id
          conflicts := store.conflictsIn g.packages
          rejected := store.rejected
          mode := p.main.mode }, p)

end Panel

end Vetting
