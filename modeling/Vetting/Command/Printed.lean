import Vetting.Suggestion.Basic

/-! What commands print for people: lines with markup, tables and panels. How they are
drawn is left to the console. -/

namespace Vetting

inductive Printed where
  | line (markup : String)
  | table (title : String) (columns : List String) (rows : List (List String))
  | panel (title text style : String)
deriving DecidableEq

/-- Things to print, and the fault that cut printing short, if one did. -/
structure Page where
  printed : List Printed
  cut : Option Fault := none

/-- A page with more printed behind it, unless it was cut short. -/
def Page.followedBy (page : Page) (more : List Printed) : Page :=
  if page.cut.isSome then page else { page with printed := page.printed ++ more }

def VettingStatus.style : VettingStatus → String
  | fully => "green"
  | partially => "yellow"
  | withExemptions => "yellow"
  | unvetted => "bold red"

def Conclusion.style : Conclusion → String
  | success => "bold green"
  | failViolation => "bold red"
  | failVetting => "bold red"

/-- Texts of the notes that say something; other values cannot be joined. -/
def noteTexts? : List Json → Option (List String)
  | [] => some []
  | v :: vs =>
    if !v.isGiven then noteTexts? vs
    else match v with
      | .str s => (noteTexts? vs).map (s :: ·)
      | _ => none

/-- A failure in one line, with the notes of the violations behind it. -/
def Failure.text? (f : Failure) : Option String :=
  (noteTexts? (f.reason.violations.map Violation.notes)).map fun notes =>
    s!"{f.criterion}: {f.reason.message}" ++
      (if notes.isEmpty then "" else " (" ++ "; ".intercalate notes ++ ")")

def Verdict.row? (v : Verdict) : Option (List String) :=
  (v.failures.mapM Failure.text?).map fun lines =>
    [v.id.package, v.id.version.text, v.unmet.listed, "\n".intercalate lines]

namespace Report

variable (r : Report)

/-- A number of packages in a colour, unless there are none. -/
def tally (colour : String) (n : Nat) (what : String) : List String :=
  if n = 0 then [] else [s!"[{colour}]{n} {what}[/{colour}]"]

/-- How many packages were vetted, and with what outcome. -/
def summaryLine : String :=
  " | ".intercalate <|
    s!"[bold]{r.verdicts.length}[/bold] packages vetted" ::
      (tally "green" (r.count .fully) "fully audited" ++
        tally "yellow" (r.count .partially) "partially audited" ++
        tally "yellow" (r.count .withExemptions) "exempted" ++
        tally "red" r.failing.length "failing")

def conflictLines : List Printed :=
  if r.conflicts.isEmpty then []
  else .line "[bold red]Audits contradicting violations:[/bold red]" ::
    r.conflicts.map fun c => .line s!"  {c.describe}"

def rejectedLines : List Printed :=
  if r.rejected.isEmpty then []
  else .line "[yellow]Rejected records:[/yellow]" ::
    r.rejected.map fun x => .line s!"  {x.package}: {x.reason}"

def page : Page :=
  let panel := Printed.panel "Vet Result" r.conclusion.word r.conclusion.style
  match r.failing.mapM Verdict.row? with
  | none => ⟨[panel], some .illShaped⟩
  | some rows =>
    let failing := if rows.isEmpty then []
      else [.table "Failing Packages" ["Package", "Version", "Missing", "Reason"] rows]
    ⟨panel :: (failing ++ r.conflictLines ++ r.rejectedLines ++ [.line r.summaryLine]), none⟩

end Report

def SuggestedAudit.command (a : SuggestedAudit) : String :=
  s!"trustvet certify {a.package} {a.target}" ++
    match a.start with
    | some v => s!" --from {v}"
    | none => ""

def SuggestionSet.printed (s : SuggestionSet) : List Printed :=
  if s.isEmpty then [.line "[dim]Nothing to suggest.[/dim]"]
  else
    (s.byCriteria.map fun (label, audits) =>
      Printed.table s!"Recommended audits for {label}" ["Command", "Cost"]
        (audits.map fun a => [a.command, toString a.cost])) ++
    (s.blocked.map fun x => Printed.line
      s!"[red]Blocked:[/red] {x.id} cannot satisfy {x.criterion}: {x.suggestion.reason}") ++
    (s.unresolved.map fun x => Printed.line
      s!"[yellow]No candidate:[/yellow] {x.id} for {x.criterion}: {x.suggestion.reason}") ++
    (if s.audits.isEmpty then []
      else [.line s!"Estimated total cost: [bold]{s.totalCost}[/bold]"])

namespace CriteriaModel

variable (m : CriteriaModel)

def properlyImplied (name : String) : NameSet := m.closure name \ .single name

/-- What a criterion is about: its description, or else the address of one, if that is a text. -/
def about? (c : Criterion) : Option String :=
  if c.description.isEmpty then
    match c.descriptionUrl.orElse (.str "") with
    | .str url => some url
    | _ => none
  else some c.description

def row? (c : Criterion) : Option (List String) :=
  (about? c).map fun about =>
    let implied := m.properlyImplied c.name
    [if isBuiltin c.name then s!"{c.name} (built-in)" else c.name,
      if implied.isEmpty then "-" else implied.listed, about]

def sorted : List Criterion := m.names.toList.filterMap m.find?

def page : Page :=
  match m.sorted.mapM m.row? with
  | some rows => ⟨[.table "Criteria" ["Name", "Implies", "Description"] rows], none⟩
  | none => ⟨[], some .illShaped⟩

def toJson : Json :=
  .arr <| m.sorted.map fun c =>
    .obj [("name", .str c.name), ("builtin", .bool (isBuiltin c.name)),
      ("implies", .arr ((m.properlyImplied c.name).toList.map .str)),
      ("description", .str c.description), ("description_url", c.descriptionUrl)]

end CriteriaModel

end Vetting
