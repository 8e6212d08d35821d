import Vetting.Suggestion.Single

/-! Suggestions for all gaps of a report. Those that ask for the same review are made
one, whose criteria are those of all. -/

namespace Vetting

variable {model : CriteriaModel} {store : AuditStore model}

/-- Add a suggested audit to others; to one that asks for the same review its criteria. -/
def mergeAudit (m : CriteriaModel) (new : SuggestedAudit) :
    List SuggestedAudit → List SuggestedAudit
  | [] => [new]
  | a :: as =>
    if a.sameReview new then
      { new with criteria := m.minimize (a.criteria ∪ new.criteria) } :: as
    else a :: mergeAudit m new as

namespace Session

variable (cost : CostMetric)

/-- The answer to one failure. A veto needs no question. -/
def answer [SetOrder] (s : Session store) (v : Verdict) (f : Failure) :
    SuggestionResult × Session store :=
  match f.reason with
  | .violation vs => (⟨v.id, f.criterion, .blocked vs⟩, s)
  | _ =>
    let (suggestion, s) := s.suggest cost v.id f.criterion v.required
    (⟨v.id, f.criterion, suggestion⟩, s)

def answerAll [SetOrder] (s : Session store) : List
    (Verdict × Failure) → List SuggestionResult × Session store
  | [] => ([], s)
  | (v, f) :: rest =>
    let (result, s) := s.answer cost v f
    let (results, s) := s.answerAll rest
    (result :: results, s)

end Session

namespace SuggestionSet

/-- The answers in order of what they are: audits by cost, each review once. -/
def ofResults (m : CriteriaModel) (results : List SuggestionResult) : SuggestionSet where
  audits := sortBy SuggestedAudit.precedes <|
    (results.filterMap fun r => r.suggestion.audit?).foldl (fun as a => mergeAudit m a as) []
  blocked := results.filter fun r => r.suggestion.isBlocked
  unresolved := results.filter fun r => r.suggestion.isOpen

end SuggestionSet

namespace Report

def failures (r : Report) : List (Verdict × Failure) :=
  r.failing.flatMap fun v => v.failures.map fun f => (v, f)

end Report

def Session.suggestAll [SetOrder] (s : Session store) (cost : CostMetric) (r : Report) :
    SuggestionSet × Session store :=
  let (results, s) := s.answerAll cost r.failures
  (.ofResults model results, s)

/-- The suggestions for a report, by a session of its own. -/
def Report.suggestions [SetOrder] (r : Report) (store : AuditStore model) (cost : CostMetric) :
    SuggestionSet :=
  ((Session.start store r.mode).suggestAll cost r).1

end Vetting
