import Vetting.Document.Dependencies
import Vetting.Document.Diffs
import Vetting.Import.Adoption
import Vetting.Workspace.Files

/-! Loading the store of a directory: its audits and exemptions, and the records of the
imports that are locked. -/

namespace Vetting

open Document

/-- The directory of a store, unless another one is named. -/
def storeDirectory : String := "supply-chain"

def lockFile : String := "imports.lock.yaml"

structure LoadedStore where
  model : CriteriaModel
  config : StoreConfig
  store : AuditStore model
  imported : Json.Members

/-- The records of one locked import, unless it is not configured. -/
def lockedRecords (model : CriteriaModel) (sources : List ImportSource) (name : String)
    (value : Json) : Logged (List AuditRecord) :=
  match sources.find? fun s => s.name = name with
  | none => do
    Logged.warn [.lockIgnored name]
    pure []
  | some source =>
    match value.orElse (.obj []) with
    | .obj document => source.adopt document model
    | _ => Logged.lift (fail s!"{lockFile}: {name}" .notMapping)

def allLockedRecords (model : CriteriaModel) (sources : List ImportSource) :
    Json.Members → Logged (List AuditRecord)
  | [] => pure []
  | (name, value) :: rest => do
    let first ← lockedRecords model sources name value
    let others ← allLockedRecords model sources rest
    pure (first ++ others)

/-- The configuration and the criteria of a store, which have to fit. -/
def loadModel (audits : Json.Members) (config : Json.Members) :
    Read (StoreConfig × CriteriaModel) := do
  let config ← Document.config config
  let entries ← criteriaEntries (field audits "criteria") auditsFile
  let model ← liftCriteria (modelOf entries)
  liftCriteria (model.check config.defaultCriteria "default-criteria")
  config.imports.forM fun source => source.criteriaMap.forM fun mapping =>
    liftCriteria (model.check mapping.ours s!"criteria-map of import {source.name}")
  pure (config, model)

def Files.loadStore (files : Files) (root : Path) : Logged LoadedStore := do
  let audits ← Logged.lift (files.readData (root.child auditsFile))
  let config ← Logged.lift (files.readData (root.child configFile))
  let (config, model) ← Logged.lift (loadModel audits config)
  let records ← Logged.lift (auditRecords audits)
  let imported ← Logged.lift (files.readData (root.child lockFile))
  let sorted := sortBy (fun a b => decide (a.1 < b.1)) imported
  let foreign ← allLockedRecords model config.imports sorted
  let store := AuditStore.ofRecords model (records ++ config.exemptions.map .exemption ++ foreign)
  Logged.warn store.warnings
  pure { model, config, store, imported := sorted }

def Files.loadGraph (files : Files) (path : Path) : Read DependencyGraph := do
  let file ← files.readGraph path
  dependencyGraph file path.text

def Files.loadDiffs (files : Files) (root : Path) : Read DiffTable := do
  let file ← files.readData (root.child diffsFile)
  diffs file

end Vetting
