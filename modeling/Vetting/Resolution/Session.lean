import Vetting.Resolution.Basic

/-! A session asks one store many questions. It keeps the versions that were asked
about, which stay vertices of the audit graphs, and the satisfied sets that it knows. -/

namespace Vetting

/-- The state of a session over a store. -/
structure Session {model : CriteriaModel} (store : AuditStore model) where
  mode : ExemptionMode
  asked : NameMap (List Version) := ∅
  memo : List (PackageKey × NameSet) := []

namespace Session

variable {model : CriteriaModel} {store : AuditStore model}

def start (store : AuditStore model) (mode : ExemptionMode) : Session store := { mode }

def askedOf (s : Session store) (package : String) : List Version :=
  (s.asked.get? package).getD []

def graph [SetOrder] (s : Session store) (package : String) : AuditGraph :=
  AuditGraph.build store package (s.askedOf package)

def grow [SetOrder] (s : Session store) (package : String) (v : Version) : Session store :=
  if (s.graph package).has v.toRelease then s
  else { s with asked := s.asked.insert package (s.askedOf package ++ [v]) }

/-- The satisfied set of a version, when it is known. -/
def remembered? (s : Session store) (key : PackageKey) : Option NameSet := s.memo.lookup key

def satisfied [SetOrder] (s : Session store) (id : PackageId) : NameSet × Session store :=
  match s.remembered? id.key with
  | some names => (names, s)
  | none =>
    let s := s.grow id.package id.version
    let names := store.satisfiedIn s.mode (s.graph id.package) id.version.toRelease
    (names, { s with memo := s.memo ++ [(id.key, names)] })

/-- Resolve a criterion that the model has. A vetoed version does not become known. -/
def resolve [SetOrder] (s : Session store) (id : PackageId) (criterion : String) :
    Resolution × Session store :=
  let t := if (store.blocking id.package id.version.toRelease criterion).isEmpty
    then s.grow id.package id.version else s
  (store.resolveIn t.mode (t.graph id.package) id.version.toRelease criterion, t)

/-- The known versions of a package that satisfy a criterion, sorted. -/
def frontier [SetOrder] (s : Session store) (package criterion : String) : List Version :=
  (s.graph package).versions.filter fun v =>
    (store.resolveIn s.mode (s.graph package) v.toRelease criterion).isSatisfied

/-- Learn the satisfied sets of some versions of one package, unless all are known. -/
def primePackage [SetOrder] (s : Session store) (package : String) (ids : List PackageId) :
    Session store :=
  if ids.all fun id => (s.remembered? id.key).isSome then s
  else
    -- The names asked for now show in place of those asked for before.
    let versions := ids.map PackageId.version ++ s.askedOf package
    let graph := AuditGraph.build store package versions
    let learnt := ids.map fun id => (id.key, store.satisfiedIn s.mode graph id.version.toRelease)
    { s with asked := s.asked.insert package versions, memo := s.memo ++ learnt }

def prime [SetOrder] (s : Session store) (ids : List PackageId) : Session store :=
  let ids := distinctOn PackageId.key ids
  (NameSet.ofList (ids.map PackageId.package)).toList.foldl
    (fun s p => s.primePackage p (ids.filter fun id => id.package = p)) s

/-- A question to a session. A query at the root of an audit graph has no version. -/
inductive Call where
  | graph (package : String) (version : Option Version)
  | satisfied (package : String) (version : Option Version)
  | satisfies (package : String) (version : Option Version) (criterion : String)
  | resolve (package : String) (version : Option Version) (criterion : String)
  | blocking (package : String) (version : Version) (criterion : String)
  | frontier (package criterion : String)
  | prime (ids : List PackageId) (workers : Nat)

inductive Answer where
  | graph (graph : AuditGraph)
  | names (names : NameSet)
  | holds (holds : Bool)
  | resolution (resolution : Resolution)
  | violations (violations : List Violation)
  | versions (versions : List Version)
  | done

/-- The version of a query, which the root does not have. -/
def concrete (version : Option Version) : Except Fault Version :=
  match version with
  | some v => .ok v
  | none => .error (.text .noVersion)

/-- Answer a question. The number of workers changes nothing. -/
def perform [SetOrder] (s : Session store) : Call → Except Fault Answer × Session store
  | .graph package none => (.ok (.graph (s.graph package)), s)
  | .graph package (some v) =>
    let s := s.grow package v
    (.ok (.graph (s.graph package)), s)
  | .satisfied package version =>
    match concrete version with
    | .error f => (.error f, s)
    | .ok v =>
      let (names, s) := s.satisfied ⟨package, v⟩
      (.ok (.names names), s)
  | .satisfies package version criterion =>
    match liftCriteria (model.check criterion) *> concrete version with
    | .error f => (.error f, s)
    | .ok v =>
      let (names, s) := s.satisfied ⟨package, v⟩
      (.ok (.holds (decide (criterion ∈ names))), s)
  | .resolve package version criterion =>
    match concrete version <* liftCriteria (model.check criterion) with
    | .error f => (.error f, s)
    | .ok v =>
      let (r, s) := s.resolve ⟨package, v⟩ criterion
      (.ok (.resolution r), s)
  | .blocking package v criterion =>
    (liftCriteria (model.check criterion) *>
      .ok (.violations (store.blocking package v.toRelease criterion)), s)
  | .frontier package criterion =>
    if (s.graph package).versions.isEmpty then (.ok (.versions []), s)
    else (liftCriteria (model.check criterion) *> .ok (.versions (s.frontier package criterion)), s)
  | .prime ids _ => (.ok .done, s.prime ids)

end Session

end Vetting
