import Vetting.Report.Basic
import Vetting.Suggestion.Basic

/-! Reports and suggestions as document values, with their members in the order in
which they are printed. -/

namespace Vetting

/-- Texts as a document value. -/
def Json.texts (l : List String) : Json := .arr (l.map .str)

def NameSet.toJson (s : NameSet) : Json := .texts s.toList

def Violation.toJson (v : Violation) : Json :=
  .obj [("versions", .str v.versions.raw), ("criteria", v.criteria.toJson),
    ("who", .texts v.who), ("notes", v.notes)]

def Failure.toJson (f : Failure) : Json :=
  .obj [("criterion", .str f.criterion), ("reason", .str f.reason.word),
    ("violations", .arr (f.reason.violations.map Violation.toJson))]

def Verdict.toJson (v : Verdict) : Json :=
  .obj [("package", .str v.id.package), ("version", .str v.id.version.text),
    ("required", v.required.toJson), ("satisfied", v.satisfied.toJson),
    ("unmet", v.unmet.toJson), ("passed", .bool v.passed), ("status", .str v.status.word),
    ("failures", .arr (v.failures.map Failure.toJson))]

def RejectedRecord.toJson (r : RejectedRecord) : Json :=
  .obj [("package", .str r.package), ("record", .str r.record.describe), ("reason", .str r.reason)]

namespace Report

variable (r : Report)

def summaryJson : Json :=
  .obj [("conclusion", .str r.conclusion.word), ("total", .int r.verdicts.length),
    ("failing", .int r.failing.length), ("vetted_fully", .int (r.count .fully)),
    ("vetted_partially", .int (r.count .partially)),
    ("vetted_with_exemptions", .int (r.count .withExemptions)),
    ("conflicts", .int r.conflicts.length), ("rejected_records", .int r.rejected.length)]

def toJson : Json :=
  .obj [("summary", r.summaryJson), ("exemption_mode", .str r.mode.word),
    ("first_party", .texts (r.firstParty.map toString)),
    ("verdicts", .arr (r.verdicts.map Verdict.toJson)),
    ("conflicts", .texts (r.conflicts.map Conflict.describe)),
    ("rejected", .arr (r.rejected.map RejectedRecord.toJson))]

end Report

def SuggestedAudit.toJson (a : SuggestedAudit) : Json :=
  .obj [("package", .str a.package),
    ("from", match a.start with
      | some v => .str v.text
      | none => .null),
    ("to", .str a.target.text), ("criteria", a.criteria.toJson), ("cost", .int a.cost)]

def SuggestionResult.toJson (r : SuggestionResult) : Json :=
  .obj [("package", .str r.id.package), ("version", .str r.id.version.text),
    ("criterion", .str r.criterion), ("status", .str r.suggestion.word),
    ("audit", match r.suggestion.audit? with
      | some a => a.toJson
      | none => .null),
    ("reason", .str r.suggestion.reason)]

def SuggestionSet.toJson (s : SuggestionSet) : Json :=
  .obj [("total_cost", .int s.totalCost),
    ("groups", .obj (s.byCriteria.map fun (label, audits) =>
      (label, .arr (audits.map SuggestedAudit.toJson)))),
    ("blocked", .arr (s.blocked.map SuggestionResult.toJson)),
    ("unresolved", .arr (s.unresolved.map SuggestionResult.toJson))]

end Vetting
