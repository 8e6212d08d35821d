import Vetting.Command.Run
import Vetting.Proofs.PassingVet
import Vetting.Proofs.SortedMembers
import Vetting.Proofs.WrittenFile

/-! What commands read from the files of a store, and what they leave of them: a store loads from
the records of its files, and a command that ends as unusable changes no file. -/

namespace Vetting

open Document

/-- The records of a store behind its audits: grants, exemptions, and those that it imports. -/
def StoreConfig.others (config : StoreConfig) (grants foreign : List AuditRecord) :
    List AuditRecord := grants ++ config.exemptions.map .exemption ++ foreign

namespace Files

variable {files : Files} {root : Path} {file : Json.Members}
  {audits grants foreign : List AuditRecord} {loaded : LoadedStore}

/-- Whether a store directory loads: what its audits file holds, and the records of its audits, its
grants and its locked imports. -/
structure Loads (files : Files) (root : Path) (file : Json.Members)
    (audits grants foreign : List AuditRecord) (loaded : LoadedStore) : Prop where
  read_eq : files.readData (root.child auditsFile) = .ok file
  model_eq : ∃ config, files.readData (root.child configFile) = .ok config ∧
    loadModel file config = .ok (loaded.config, loaded.model)
  audits_eq : eachEntry (field file "audits") s!"{auditsFile}: audits" auditEntry = .ok audits
  grants_eq : eachEntry (field file "trusted") s!"{auditsFile}: trusted" grantEntry = .ok grants
  imported_eq : ∃ lock, files.readData (root.child lockFile) = .ok lock ∧
    loaded.imported = sortBy (fun a b => decide (a.1 < b.1)) lock
  foreign_eq : (allLockedRecords loaded.model loaded.config.imports loaded.imported).outcome =
    .ok foreign
  store_eq : loaded.store = .ofRecords loaded.model (audits ++ loaded.config.others grants foreign)

theorem outcome_loadStore_eq_ok_iff : (files.loadStore root).outcome = .ok loaded ↔
    ∃ file audits grants foreign, files.Loads root file audits grants foreign loaded := by
  simp only [loadStore, Logged.outcome_bind, Logged.lift, Logged.warn]
  constructor
  · intro h
    obtain ⟨file, hread, h⟩ := bind_eq_ok h
    obtain ⟨config, hconfig, h⟩ := bind_eq_ok h
    obtain ⟨⟨config', model⟩, hmodel, h⟩ := bind_eq_ok h
    obtain ⟨records, hrecords, h⟩ := bind_eq_ok h
    obtain ⟨lock, hlock, h⟩ := bind_eq_ok h
    obtain ⟨foreign, hforeign, h⟩ := bind_eq_ok h
    obtain ⟨audits, haudits, hrecords⟩ := bind_eq_ok hrecords
    obtain ⟨grants, hgrants, hrecords⟩ := bind_eq_ok hrecords
    obtain rfl : audits ++ grants = records := Except.ok.inj hrecords
    obtain rfl := Except.ok.inj h
    refine ⟨file, audits, grants, foreign, hread, ⟨config, hconfig, hmodel⟩, haudits, hgrants,
      ⟨lock, hlock, rfl⟩, hforeign, ?_⟩
    simp only [StoreConfig.others, List.append_assoc]
  · rintro ⟨file, audits, grants, foreign, hread, ⟨config, hconfig, hmodel⟩, haudits, hgrants,
      ⟨lock, hlock, himported⟩, hforeign, hstore⟩
    obtain ⟨model, config', store, imported⟩ := loaded
    dsimp only at hmodel himported hforeign hstore
    subst himported hstore
    rw [hread, ok_bind, hconfig, ok_bind, hmodel, ok_bind, auditRecords, haudits, ok_bind, hgrants,
      ok_bind, hlock]
    simp only [pure, Except.pure, ok_bind, hforeign, StoreConfig.others, List.append_assoc]

variable {later : Files} {path : Path}

theorem readData_congr {other : Files} (h : later.find? path = other.find? path) :
    later.readData path = other.readData path := by
  rw [readData, readData, h]

/-- A file that was written reads as it was written, sorted, if its texts are plain. -/
theorem readData_writeData [DataFormat] (hformat : DataFormat.Faithful)
    (hhome : files.root.hasDirectory files.home = true) (hplain : (Json.obj file).isPlain = true)
    (hdone : (files.writeData path file).done = true) :
    (files.writeData path file).files.readData path = .ok (Json.sortEach file) := by
  have hfind : (files.writeData path file).files.find? path =
      some (.file (DataFormat.reread (Json.obj file))) :=
    find?_write (hasDirectory_start hhome) hdone
  rw [readData, hfind, hformat.reread_eq _ hplain, Json.sortMembers_obj]

end Files

namespace Command

variable {files : Files} {network : Network} {α : Type} {json : Bool}

/-- Whether an outcome that is unusable leaves the files as they are. -/
def Spares (files : Files) (r : Logged Outcome) : Prop :=
  ∀ o, r.outcome = .ok o → o.exit = .unusable → o.files = files

theorem spares_bind {x : Logged α} {f : α → Logged Outcome} (h : ∀ a, Spares files (f a)) :
    Spares files (x >>= f) := by
  intro o ho
  rw [Logged.outcome_bind] at ho
  obtain ⟨a, _, ho⟩ := bind_eq_ok ho
  exact h a o ho

theorem spares_pure {o : Outcome} (h : o.exit = .unusable → o.files = files) :
    Spares files (pure o) := by
  intro p hp
  obtain rfl : o = p := Except.ok.inj hp
  exact h

theorem spares_ite {p : Prop} [Decidable p] {x y : Logged Outcome} (hx : Spares files x)
    (hy : Spares files y) : Spares files (if p then x else y) := by
  split
  · exact hx
  · exact hy

theorem spares_lift_error (f : Fault) : Spares files (Logged.lift (.error f)) := by
  intro o ho
  cases ho

theorem spares_shown {exit : Exit} {page : Page} : Spares files (pure (shown files exit page)) := by
  refine spares_pure fun _ => ?_
  rw [shown]
  split
  · rfl
  · rfl

/-- What writes a file never ends as unusable. -/
theorem spares_written {path : Path} {attempt : Attempt} {said : String} :
    Spares files (pure (written path attempt said)) := by
  refine spares_pure fun h => ?_
  rw [written] at h
  split at h
  · cases h
  · cases h

theorem spares_runCertify [SetOrder] [DataFormat] : Spares files (runCertify files o) := by
  refine spares_bind fun loaded => ?_
  split
  · exact spares_pure fun _ => rfl
  · dsimp only
    split
    · exact spares_lift_error _
    · exact spares_bind fun _ => spares_written

theorem spares_runFetchImports [DataFormat] {root : Path} :
    Spares files (runFetchImports files network root) := by
  exact spares_bind fun loaded => spares_ite (spares_pure fun _ => rfl)
    (spares_bind fun _ => spares_bind fun _ => spares_written)

theorem spares_runCriteria {root : Path} : Spares files (runCriteria files root json) := by
  exact spares_bind fun loaded => spares_ite (spares_pure fun _ => rfl) spares_shown

theorem spares_runCheck [SetOrder] {o : VetOptions} {suggest : Bool} :
    Spares files (runCheck files o suggest) := by
  exact spares_bind fun loaded => spares_bind fun graph => spares_bind fun report =>
    spares_bind fun _ => spares_ite (spares_pure fun _ => rfl) spares_shown

theorem spares_runSuggest [SetOrder] {o : VetOptions} {byDiffs : Bool} :
    Spares files (runSuggest files o byDiffs) := by
  refine spares_bind fun loaded => spares_bind fun graph => ?_
  dsimp only
  split
  · exact spares_bind fun cost => spares_bind fun report => spares_bind fun _ =>
      spares_ite (spares_pure fun _ => rfl) (spares_pure fun _ => rfl)
  · exact spares_bind fun cost => spares_bind fun report => spares_bind fun _ =>
      spares_ite (spares_pure fun _ => rfl) (spares_pure fun _ => rfl)

theorem files_conclude {r : Logged Outcome} (h : Spares files r)
    (hexit : (conclude files json r).exit = .unusable) : (conclude files json r).files = files := by
  cases hr : r.outcome with
  | ok o =>
    simp only [conclude, hr] at hexit ⊢
    exact h o hr hexit
  | error f =>
    simp only [conclude, hr, faulted]
    split
    · rfl
    · rfl

/-- A command that ends as unusable leaves the files as they are. -/
theorem files_run_of_unusable [SetOrder] [DataFormat] {c : Command}
    (h : (c.run files network).exit = .unusable) : (c.run files network).files = files := by
  cases c with
  | showVersion => rfl
  | showHelp => rfl
  | check => exact files_conclude spares_runCheck h
  | suggest => exact files_conclude spares_runSuggest h
  | certify => exact files_conclude spares_runCertify h
  | fetchImports => exact files_conclude spares_runFetchImports h
  | criteria => exact files_conclude spares_runCriteria h

theorem exists_outcome_of_done {r : Logged Outcome} (h : (conclude files json r).exit = .done) :
    ∃ o, r.outcome = .ok o ∧ o.exit = .done ∧ (conclude files json r).files = o.files := by
  cases hr : r.outcome with
  | ok o =>
    simp only [conclude, hr] at h ⊢
    exact ⟨o, rfl, h, rfl⟩
  | error f =>
    simp only [conclude, hr, faulted] at h
    split at h
    · cases h
    · cases h

end Command

end Vetting
