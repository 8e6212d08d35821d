import Vetting.Import.Adoption

/-! Fetching the documents of imports. Every address is asked before any answer is
read, so a failed request is reported before a bad document. -/

namespace Vetting

/-- What an address answers: the value of its document, or why there is none. -/
inductive Body where
  | value (value : Json)
  | unreadable
  | failed (message : String)

/-- The answer of an address that nothing is published at. -/
def Body.missing (url : String) : Body := .failed s!"HTTP 404 fetching {url}"

abbrev Network := String → Body

def Body.answered : Body → Except Fault Body
  | failed message => .error (.fetch (.failed message))
  | body => .ok body

/-- The document of an answer; an empty one has no members. -/
def Body.document (name : String) : Body → Except Fault Json.Members
  | value .null => .ok []
  | value (.obj ms) => .ok ms
  | value _ => .error (.fetch (.notMapping name))
  | unreadable => .error (.fetch (.unreadable name))
  | failed message => .error (.fetch (.failed message))

def fetchImports (network : Network) (sources : List ImportSource) :
    Except Fault (NameMap Json.Members) := do
  let sources := sortBy (fun a b => decide (a.name < b.name)) sources
  let bodies ← sources.mapM fun s => (network s.url).answered.map fun b => (s.name, b)
  let documents ← bodies.mapM fun (name, body) => (body.document name).map fun d => (name, d)
  pure (NameMap.ofList documents)

end Vetting
