import Vetting.Resolution.Session
import Vetting.Suggestion.Basic

/-! The cheapest audit that closes a gap: the change from a version that satisfies the
criterion already, or the whole version where none does. What is suggested was tried on
a store that holds it. -/

namespace Vetting

variable {model : CriteriaModel}

namespace AuditStore

variable (store : AuditStore model) (mode : ExemptionMode)

/-- Whether exemptions cover the criterion at a version and none of them wants a review. -/
def optedOut (id : PackageId) (criterion : String) : Bool :=
  let covering := (store.exemptionsFor id.package id.version.toRelease).filter fun e =>
    e.criteria.meets (model.satisfiers criterion)
  !covering.isEmpty && !covering.any Exemption.suggest

/-- Whether a store that holds the audit satisfies the criterion where the audit ends. -/
def closes [SetOrder] (audit : SuggestedAudit) (criterion : String) : Bool :=
  ((store.withRecords [audit.toRecord]).resolve mode ⟨audit.package, audit.target⟩
    criterion).isSatisfied

end AuditStore

def cheapest? (cost : Version → Int) : List Version → Option Version
  | [] => none
  | v :: vs =>
    match cheapest? cost vs with
    | some w => if cost w < cost v then some w else some v
    | none => some v

namespace Session

variable {store : AuditStore model} (cost : CostMetric)

/-- The versions other than one that satisfy a criterion, the highest first. -/
def startsFor [SetOrder] (s : Session store) (id : PackageId) (criterion : String) : List Version :=
  sortBy (fun a b => b.toRelease.precedes a.toRelease) <|
    (s.frontier id.package criterion).filter fun v => v.toRelease ≠ id.version.toRelease

/-- The audit to consider for a criterion that a version does not satisfy. -/
def candidate [SetOrder] (s : Session store) (id : PackageId) (criterion : String)
    (required : NameSet) : SuggestedAudit × Session store :=
  -- Of the cheapest starts the highest comes first.
  match cheapest? (fun v => cost id.package (some v) id.version) (s.startsFor id criterion) with
  | some start =>
    ({ package := id.package, start := some start, target := id.version,
       criteria := .single criterion, cost := cost id.package (some start) id.version }, s)
  | none =>
    let (satisfied, s) := s.satisfied id
    let wanted := (required.insert criterion \ satisfied).filter fun c =>
      (store.blocking id.package id.version.toRelease c).isEmpty
    ({ package := id.package, start := none, target := id.version,
       criteria := model.minimize wanted, cost := cost id.package none id.version }, s)

/-- Suggest an audit that makes a version satisfy a criterion; a full audit is for all else
that is required of the version, too. -/
def suggest [SetOrder] (s : Session store) (id : PackageId) (criterion : String)
    (required : NameSet) : Suggestion × Session store :=
  match s.resolve id criterion with
  | (.vetoed vs, s) => (.blocked vs, s)
  | (.satisfied _, s) => (.satisfied, s)
  | (.unreached, s) =>
    if store.optedOut id criterion then (.noCandidate .optedOut, s)
    else
      let (audit, s) := s.candidate cost id criterion required
      if store.closes s.mode audit criterion then (.proposed audit, s)
      else (.noCandidate (.wouldNotSatisfy audit), s)

/-- What a new audit of a version could usefully claim: what is satisfied where it starts,
or any criterion, unless it is satisfied at the version already or vetoed there. -/
def usefulCriteria [SetOrder] (s : Session store) (package : String) (start : Option Version)
    (target : Version) : NameSet × Session store :=
  let (base, s) := match start with
    | some v => s.satisfied ⟨package, v⟩
    | none => (model.names, s)
  let (held, s) := s.satisfied ⟨package, target⟩
  (model.minimize ((base \ held).filter fun c =>
    (store.blocking package target.toRelease c).isEmpty), s)

/-- Suggest an audit, where every criterion that has to be looked up is known. -/
def suggestChecked [SetOrder] (s : Session store) (id : PackageId) (criterion : String)
    (required : NameSet) : Except CriteriaFault (Suggestion × Session store) := do
  model.check criterion
  let answer := s.suggest cost id criterion required
  if answer.1.isFullReview then model.checkAll required.toList
  pure answer

end Session

namespace AuditStore

def usefulCriteria [SetOrder] (store : AuditStore model) (mode : ExemptionMode) (package : String)
    (start : Option Version) (target : Version) : NameSet :=
  ((Session.start store mode).usefulCriteria package start target).1

/-- What a new audit claims when nobody says what: what is useful, or else a default. -/
def criteriaToCertify [SetOrder] (store : AuditStore model) (default package : String)
    (start : Option Version) (target : Version) : NameSet :=
  let useful := store.usefulCriteria .allow package start target
  if useful.isEmpty then .single default else useful

end AuditStore

end Vetting
