import Vetting.Command.Parse
import Vetting.Command.Printed
import Vetting.Report.Json
import Vetting.Report.Vet
import Vetting.Suggestion.Batch
import Vetting.Text.Unstyled
import Vetting.Workspace.Save

/-! What the commands do to the files of a working directory, and what they say. -/

namespace Vetting

/-- How a command ends: the work is done, the vet failed, or something is unusable. -/
inductive Exit where
  | done
  | failed
  | unusable
deriving DecidableEq

def Exit.code : Exit → Nat
  | done => 0
  | failed => 1
  | unusable => 2

/-- What a command did: the files as it left them, text for standard output, and things to
print. An accident is a fault that it did not report. -/
structure Outcome where
  exit : Exit
  files : Files
  output : String := ""
  printed : List Printed := []
  warnings : List Warning := []
  accident : Option Fault := none

namespace Command

def errorText (json : Bool) (message : String) : String :=
  if json then (Json.obj [("error", .str message)]).compact ++ "\n"
  else s!"Error: {message}\n"

def faulted (files : Files) (json : Bool) (f : Fault) : Outcome :=
  if f.isReported then { exit := .unusable, files, output := errorText json f.message }
  else { exit := .failed, files, accident := some f }

def conclude (files : Files) (json : Bool) (r : Logged Outcome) : Outcome :=
  let outcome := match r.outcome with
    | .ok o => o
    | .error f => faulted files json f
  { outcome with warnings := r.warnings }

/-- The outcome of a command that writes the file at a path, and then says that it did. -/
def written (path : Path) (a : Attempt) (output : String) : Outcome :=
  if a.done then { exit := .done, files := a.files, output }
  else { exit := .failed, files := a.files, accident := some (.unwritable path.text) }

/-- The outcome of printing a page, which leaves the files as they are. -/
def shown (files : Files) (exit : Exit) (page : Page) : Outcome :=
  match page.cut with
  | some f => { exit := .failed, files, printed := page.printed, accident := some f }
  | none => { exit, files, printed := page.printed }

def modeOf (o : VetOptions) : ExemptionMode := .ofFlags o.locked o.strict

/-- Vet a dependency graph; where the vet fails, suggest audits. -/
def runCheck [SetOrder] (files : Files) (o : VetOptions) (suggest : Bool) : Logged Outcome := do
  let loaded ← files.loadStore o.store
  let graph ← Logged.lift (files.loadGraph o.graph)
  let report ← loaded.store.vetLogged (modeOf o) graph loaded.config.policies
  let exit := if report.passed then Exit.done else .failed
  let suggestions := if report.passed || !suggest then none
    else some (report.suggestions loaded.store versionDistance)
  Logged.warn ((suggestions.map SuggestionSet.warnings).getD [])
  if o.json then
    let value := Json.obj [("report", report.toJson),
      ("suggestions", match suggestions with
        | some s => s.toJson
        | none => .null)]
    pure { exit, files, output := value.pretty ++ "\n" }
  else
    let suggested := (suggestions.map SuggestionSet.printed).getD []
    pure (shown files exit (report.page.followedBy suggested))

def runSuggest [SetOrder] (files : Files) (o : VetOptions) (byDiffs : Bool) : Logged Outcome := do
  let loaded ← files.loadStore o.store
  let graph ← Logged.lift (files.loadGraph o.graph)
  let cost ← if byDiffs then Logged.lift ((files.loadDiffs o.store).map DiffTable.cost)
    else pure versionDistance
  let report ← loaded.store.vetLogged (modeOf o) graph loaded.config.policies
  let suggestions := report.suggestions loaded.store cost
  Logged.warn suggestions.warnings
  if o.json then pure { exit := .done, files, output := suggestions.toJson.pretty ++ "\n" }
  else pure { exit := .done, files, printed := suggestions.printed }

def certified [SetOrder] (loaded : LoadedStore) (o : CertifyOptions) (start : Option Version)
    (target : Version) : AuditRecord :=
  let criteria := if o.criteria.isEmpty
    then loaded.store.criteriaToCertify loaded.config.defaultCriteria o.package start target
    else NameSet.ofList o.criteria
  reviewRecord o.package start target criteria o.who ((o.notes.map Json.str).getD .null)

/-- The versions of a review, the one it ends at first. -/
def reviewed (o : CertifyOptions) : Except TextFault (Option Version × Version) := do
  let target ← Version.parse o.version
  match o.start with
  | some s => (Version.parse s).map fun start => (some start, target)
  | none => pure (none, target)

def runCertify [SetOrder] [DataFormat] (files : Files) (o : CertifyOptions) : Logged Outcome := do
  let loaded ← files.loadStore o.store
  match reviewed o with
  | .error f => pure { exit := .unusable, files, output := errorText false f.message }
  | .ok (start, target) =>
    let r := certified loaded o start target
    match r.fault? loaded.model o.package with
    | some f => Logged.lift (.error (.record r f))
    | none =>
      let attempt ← Logged.lift (files.appendAudit o.store r)
      let path := o.store.child Document.auditsFile
      let said := s!"Recorded {r.describe} for {o.package} ({r.criteria.listed}) in {path}\n"
      pure (written path attempt said)

def importCounts (model : CriteriaModel) (documents : NameMap Json.Members) :
    List ImportSource → Logged (List (String × Nat))
  | [] => pure []
  | source :: rest => do
    let records ← source.adopt ((documents.get? source.name).getD []) model
    let others ← importCounts model documents rest
    pure ((source.name, records.length) :: others)

/-- Fetch the configured imports, and lock them when all can be adopted. -/
def runFetchImports [DataFormat] (files : Files) (network : Network) (root : Path) :
    Logged Outcome := do
  let loaded ← files.loadStore root
  let sources := loaded.config.imports
  if sources.isEmpty then pure { exit := .done, files, output := "No imports configured.\n" }
  else
    let documents ← Logged.lift (Vetting.fetchImports network sources)
    let counts ← importCounts loaded.model documents sources
    let lines := (sortBy (fun a b => decide (a.1 < b.1)) counts).map fun (name, n) =>
      s!"{name}: {n} records\n"
    let path := root.child lockFile
    let said := String.join lines ++ s!"Imports written to: {path}\n"
    pure (written path (files.lockImports root (lockValue documents)) said)

def runCriteria (files : Files) (root : Path) (json : Bool) : Logged Outcome := do
  let loaded ← files.loadStore root
  if json then pure { exit := .done, files, output := loaded.model.toJson.pretty ++ "\n" }
  else pure (shown files .done loaded.model.page)

def run [SetOrder] [DataFormat] (files : Files) (network : Network) : Command → Outcome
  | showVersion => { exit := .done, files, output := s!"{programName}, version 0.1.0\n" }
  | showHelp page => { exit := .done, files, output := page.text }
  | check o answered => conclude files o.json (runCheck files o answered)
  | suggest o byDiffs => conclude files o.json (runSuggest files o byDiffs)
  | certify o => conclude files false (runCertify files o)
  | fetchImports root => conclude files false (runFetchImports files network root)
  | criteria root json => conclude files json (runCriteria files root json)

/-- Run a command line; one that cannot be read changes and says nothing. Its output is
no terminal. -/
def runLine [SetOrder] [DataFormat] (files : Files) (network : Network) (args : List String) :
    Outcome :=
  match parse files args with
  | some c =>
    let outcome := c.run files network
    { outcome with output := Text.unstyled outcome.output }
  | none => { exit := .unusable, files }

end Command

end Vetting
