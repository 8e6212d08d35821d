import Vetting.Audit.Conflict
import Vetting.Requirement

/-! Reports: a verdict on every third-party package, and what the store itself gives
cause for. A vet that fails is a report like any other. -/

namespace Vetting

inductive FailureReason where
  | violation (violations : List Violation)
  | exemptionExcluded
  | noAuditPath

namespace FailureReason

def word : FailureReason → String
  | violation _ => "violation"
  | exemptionExcluded => "exemption-excluded"
  | noAuditPath => "no-audit-path"

def message : FailureReason → String
  | violation _ => "violation present"
  | exemptionExcluded => "exemption present but excluded by strict/locked mode"
  | noAuditPath => "no path to any satisfying audit"

def violations : FailureReason → List Violation
  | violation vs => vs
  | _ => []

end FailureReason

structure Failure where
  criterion : String
  reason : FailureReason

/-- How a package came to pass, or that it did not. -/
inductive VettingStatus where
  | fully
  | partially
  | withExemptions
  | unvetted
deriving DecidableEq

namespace VettingStatus

def word : VettingStatus → String
  | fully => "fully"
  | partially => "partially"
  | withExemptions => "with-exemptions"
  | unvetted => "unvetted"

def parse (text : String) : Except TextFault VettingStatus :=
  match [fully, partially, withExemptions, unvetted].find? fun s => s.word = text with
  | some s => .ok s
  | none => .error (.notChoice .vettingStatus text)

end VettingStatus

structure Verdict where
  id : PackageId
  required : NameSet
  satisfied : NameSet
  failures : List Failure
  status : VettingStatus

namespace Verdict

def unmet (v : Verdict) : NameSet := v.required \ v.satisfied

theorem mem_unmet {v : Verdict} {c : String} : c ∈ v.unmet ↔ c ∈ v.required ∧ c ∉ v.satisfied :=
  NameSet.mem_sdiff

/-- The violations behind the failures, each once. -/
def violations (v : Verdict) : List Violation :=
  (v.failures.flatMap fun f => f.reason.violations).foldl
    (fun seen w => if seen.any fun u => w.agrees u then seen else seen ++ [w]) []

def passed (v : Verdict) : Bool := v.unmet.isEmpty && v.violations.isEmpty

end Verdict

inductive Conclusion where
  | success
  | failViolation
  | failVetting
deriving DecidableEq

def Conclusion.word : Conclusion → String
  | success => "success"
  | failViolation => "fail (violation)"
  | failVetting => "fail (vetting)"

structure Report where
  verdicts : List Verdict
  firstParty : List PackageId
  conflicts : List Conflict
  rejected : List RejectedRecord
  mode : ExemptionMode

namespace Report

variable (r : Report)

def failing : List Verdict := r.verdicts.filter fun v => !v.passed

def allPass : Bool := r.verdicts.all Verdict.passed

def conclusion : Conclusion :=
  if !r.conflicts.isEmpty || r.failing.any fun v => !v.violations.isEmpty then .failViolation
  else if r.failing.isEmpty then .success
  else .failVetting

def passed : Bool := r.conclusion == .success

def find? (key : PackageKey) : Option Verdict := r.verdicts.find? fun v => v.id.key = key

def count (status : VettingStatus) : Nat :=
  (r.verdicts.filter fun v => v.passed && v.status == status).length

end Report

end Vetting
