import Vetting.Document.Entry
import Vetting.Import.Fetching
import Vetting.Workspace.Load

/-! Writing to a store directory: new audits, and the documents of imports. -/

namespace Vetting

open Document

def Files.appendAudit [DataFormat] (files : Files) (root : Path) (r : AuditRecord) :
    Read Attempt := do
  let audits ← files.readData (root.child auditsFile)
  let audits ← Document.appendAudit audits r
  pure (files.writeData (root.child auditsFile) audits)

/-- Lock the documents of imports, in place of those before. -/
def Files.lockImports [DataFormat] (files : Files) (root : Path) (documents : Json.Members) :
    Attempt :=
  files.writeData (root.child lockFile) documents

def lockValue (documents : NameMap Json.Members) : Json.Members :=
  documents.entries.map fun (name, d) => (name, .obj d)

end Vetting
