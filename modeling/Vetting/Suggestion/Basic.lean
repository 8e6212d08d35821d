import Vetting.Report.Basic
import Vetting.Suggestion.Cost
import Vetting.Warning

/-! Suggested audits, and what there is to say where none can be suggested. -/

namespace Vetting

/-- The record of a review, from a version or in full. -/
def reviewRecord (package : String) (start : Option Version) (target : Version)
    (criteria : NameSet) (who : List String) (notes : Json) : AuditRecord :=
  match start with
  | some start => .delta { package, start, target, criteria, who, notes }
  | none => .full { package, version := target, criteria, who, notes }

/-- A review that would close a gap, from a version or in full, up to another version. -/
structure SuggestedAudit where
  package : String
  start : Option Version
  target : Version
  criteria : NameSet
  cost : Int
deriving Inhabited

namespace SuggestedAudit

variable (a : SuggestedAudit)

def isDelta : Bool := a.start.isSome

/-- What is to be reviewed: a change, or a version. -/
def delta : String :=
  match a.start with
  | some v => s!"{v} -> {a.target}"
  | none => a.target.text

def describe : String :=
  (if a.isDelta then "delta audit" else "full audit") ++
    s!" of {a.package} {a.delta} for {a.criteria.listed}"

def toRecord (who : List String := []) (notes : Json := .null) : AuditRecord :=
  reviewRecord a.package a.start a.target a.criteria who notes

/-- Whether two suggestions ask for the review of the same change. -/
def sameReview (b : SuggestedAudit) : Bool :=
  a.package == b.package && a.start.map Version.toRelease == b.start.map Version.toRelease &&
    a.target.toRelease == b.target.toRelease

/-- By cost, then by package, then by the version that the review ends at. -/
def precedes (b : SuggestedAudit) : Bool :=
  decide (a.cost < b.cost) || (a.cost == b.cost &&
    (decide (a.package < b.package) ||
      (a.package == b.package && a.target.toRelease.precedes b.target.toRelease)))

end SuggestedAudit

inductive NoCandidate where
  | optedOut
  | wouldNotSatisfy (audit : SuggestedAudit)

inductive Suggestion where
  | proposed (audit : SuggestedAudit)
  | blocked (violations : List Violation)
  | noCandidate (cause : NoCandidate)
  | satisfied

namespace Suggestion

def word : Suggestion → String
  | proposed _ => "proposed"
  | blocked _ => "blocked"
  | noCandidate _ => "no-candidate"
  | satisfied => "satisfied"

def reason : Suggestion → String
  | blocked _ => "a violation denies this criterion for this version"
  | noCandidate .optedOut => "an exemption covers this version and is marked suggest: false"
  | noCandidate (.wouldNotSatisfy _) => "no candidate audit would satisfy this criterion"
  | _ => ""

def audit? : Suggestion → Option SuggestedAudit
  | proposed a => some a
  | _ => none

def violations : Suggestion → List Violation
  | blocked vs => vs
  | _ => []

def isBlocked : Suggestion → Bool
  | blocked _ => true
  | _ => false

/-- Whether a gap stays open although nothing vetoes it. -/
def isOpen : Suggestion → Bool
  | noCandidate _ => true
  | _ => false

def isFullReview : Suggestion → Bool
  | proposed a => !a.isDelta
  | noCandidate (.wouldNotSatisfy a) => !a.isDelta
  | _ => false

/-- The warning of a review that was considered and discarded. -/
def warnings (criterion : String) : Suggestion → List Warning
  | noCandidate (.wouldNotSatisfy a) => [.discarded a.describe criterion]
  | _ => []

end Suggestion

structure SuggestionResult where
  id : PackageId
  criterion : String
  suggestion : Suggestion

structure SuggestionSet where
  audits : List SuggestedAudit
  blocked : List SuggestionResult
  unresolved : List SuggestionResult

namespace SuggestionSet

variable (s : SuggestionSet)

def totalCost : Int := s.audits.foldl (fun total a => total + a.cost) 0

/-- The audits by the criteria that they are for, labels in ascending order. -/
def byCriteria : List (String × List SuggestedAudit) :=
  (NameSet.ofList (s.audits.map fun a => a.criteria.listed)).toList.map fun label =>
    (label, s.audits.filter fun a => a.criteria.listed = label)

def isEmpty : Bool := s.audits.isEmpty && s.blocked.isEmpty && s.unresolved.isEmpty

def warnings : List Warning :=
  s.unresolved.flatMap fun r => r.suggestion.warnings r.criterion

end SuggestionSet

end Vetting
