import Vetting.Proofs.AppendedAudit
import Vetting.Proofs.MoreRecords
import Vetting.Proofs.StoreFiles

/-! What certifying leaves behind: the files as they were when something is unusable, and when it is
done a store that holds what it held and one audit more. -/

namespace Vetting

open Document

namespace LoadedStore

/-- The records of a package among those that came together, less those that are refused. -/
def accepted (loaded : LoadedStore) (records : List AuditRecord) (package : String) :
    List AuditRecord := (AuditStore.ofRecords loaded.model records).recordsFor package

/-- Whether a store holds what another one held and one record more, behind the audits of its
package and in front of all else that there is of it. -/
structure Gains (k : Regard) (before after : LoadedStore) (r : AuditRecord)
    (audits others : List AuditRecord) : Prop where
  model_same : after.model.SameAs k before.model
  config_eq : after.config = before.config
  imported_eq : after.imported = before.imported
  rejected_eq : after.store.rejected.map k.rejected = before.store.rejected.map k.rejected
  elsewhere : ∀ package, package ≠ r.package →
    (after.store.recordsFor package).map k.record = (before.store.recordsFor package).map k.record
  before_eq : before.store.recordsFor r.package =
    before.accepted audits r.package ++ before.accepted others r.package
  after_eq : (after.store.recordsFor r.package).map k.record =
    (before.accepted audits r.package ++ r :: before.accepted others r.package).map k.record

variable {k : Regard} {before after : LoadedStore} {r : AuditRecord} {package : String}
  {audits audits' others others' : List AuditRecord}

theorem accepted_append : before.accepted (audits ++ others) package =
    before.accepted audits package ++ before.accepted others package := by
  rw [accepted, accepted, accepted, AuditStore.recordsFor_ofRecords,
    AuditStore.recordsFor_ofRecords, AuditStore.recordsFor_ofRecords, recordsOf_append,
    List.filter_append]

theorem accepted_cons (hvalid : r.fault? before.model r.package = none) :
    before.accepted (r :: others) package =
      if r.package = package then r :: before.accepted others package
      else before.accepted others package := by
  rw [accepted, accepted, AuditStore.recordsFor_ofRecords, AuditStore.recordsFor_ofRecords,
    recordsOf_cons]
  split
  · rw [List.filter_cons_of_pos (by simp [hvalid])]
  · rfl

/-- A store gains a valid record that stands behind its audits, whatever the order of packages. -/
theorem gains_of_alike (hmodel : after.model.SameAs k before.model)
    (hconfig : after.config = before.config) (himported : after.imported = before.imported)
    (hbefore : before.store = .ofRecords before.model (audits ++ others))
    (hafter : after.store = .ofRecords after.model (audits' ++ others'))
    (hvalid : r.fault? before.model r.package = none)
    (haudits : k.Alike audits' (audits ++ [r])) (hothers : k.Alike others' others) :
    Gains k before after r audits others := by
  have hrecords : k.Alike (audits' ++ others') (audits ++ r :: others) := by
    have hall := haudits.append hothers
    rwa [List.append_assoc] at hall
  have hrecordsFor : ∀ p, (after.store.recordsFor p).map k.record =
      (before.accepted (audits ++ r :: others) p).map k.record := by
    intro p
    rw [hafter]
    exact AuditStore.map_recordsFor_congr hmodel hrecords
  have hformer : ∀ p, before.store.recordsFor p =
      before.accepted audits p ++ before.accepted others p := by
    intro p
    rw [hbefore, ← accepted_append]
    rfl
  refine ⟨hmodel, hconfig, himported, ?_, fun p hp => ?_, hformer _, ?_⟩
  · rw [hafter, hbefore, AuditStore.map_rejected_congr hmodel hrecords,
      AuditStore.map_rejected_insert hvalid]
  · rw [hrecordsFor, hformer, accepted_append, accepted_cons hvalid, if_neg (Ne.symm hp)]
  · rw [hrecordsFor, accepted_append, accepted_cons hvalid, if_pos rfl]

end LoadedStore

namespace Files

variable {k : Regard} {before : LoadedStore} {r : AuditRecord} {files later : Files} {root : Path}
  {file file' : Json.Members} {audits grants foreign : List AuditRecord}

/-- Whether a store directory loads as a store that gained a record: behind the audits, in front of
the grants, of the exemptions and of what is foreign. -/
def Gained (k : Regard) (files : Files) (root : Path) (before : LoadedStore) (r : AuditRecord)
    (audits grants foreign : List AuditRecord) : Prop :=
  ∃ after, (files.loadStore root).outcome = .ok after ∧
    before.Gains k after r audits (before.config.others grants foreign)

/-- With a record appended to its audits file a store gains that record. -/
theorem Loads.gained (h : files.Loads root file audits grants foreign before)
    (hkeeps : k.KeepsFile file)
    (hdistinct : ∀ ms, field file "audits" = .obj ms → (ms.map Prod.fst).Nodup)
    (hvalid : r.fault? before.model r.package = none)
    (happend : Document.appendAudit file r = .ok file')
    (hback : ∀ entry, entryOf r = .ok entry → Regard.Reads auditEntry r.package entry r)
    (hfile : later.readData (root.child auditsFile) = .ok (Json.sortEach file'))
    (hother : ∀ name, name = configFile ∨ name = lockFile →
      later.readData (root.child name) = files.readData (root.child name)) :
    later.Gained k root before r audits grants foreign := by
  obtain ⟨ms, hsection⟩ := isSection_of_eachEntry h.audits_eq
  have hnodup : (ms.map Prod.fst).Nodup := by
    rcases hsection with hobj | ⟨_, rfl⟩
    · exact hdistinct ms hobj
    · exact List.nodup_nil
  obtain ⟨entry, items, hentry, hitems, rfl⟩ := exists_put_of_appendAudit happend hsection
  have haudits := h.audits_eq
  rw [hsection.eachEntry_eq] at haudits
  obtain ⟨audits', haudits', hsameaudits⟩ := Regard.steady_auditEntry.exists_appended hnodup
    (hkeeps.audits ms hsection) hitems (plain_entryOf hentry).keepsEntry (hback entry hentry) haudits
  obtain ⟨grants', hgrants', hsamegrants⟩ :=
    Regard.steady_grantEntry.exists_sorted_eachEntry hkeeps.trusted h.grants_eq
  obtain ⟨config, hconfig, hmodel⟩ := h.model_eq
  have hcriteria : field (Json.sortEach (file.put "audits"
      (.obj (ms.put r.package (.arr (items ++ [.obj entry])))))) "criteria" =
        (field file "criteria").sortMembers := by
    rw [field_sortEach, field_put, if_neg (by decide)]
  obtain ⟨n, hmodel', hsame⟩ := exists_loadModel_sorted hmodel hcriteria hkeeps.criteria
  let after : LoadedStore :=
    { model := n, config := before.config, imported := before.imported
      store := .ofRecords n (audits' ++ before.config.others grants' foreign) }
  refine ⟨after, outcome_loadStore_eq_ok_iff.2 ⟨_, audits', grants', foreign, hfile,
    ⟨config, ?_, hmodel'⟩, ?_, ?_, ?_, ?_, rfl⟩, ?_⟩
  · rw [hother _ (.inl rfl), hconfig]
  · rw [field_sortEach, field_put, if_pos rfl]
    exact haudits' _
  · rw [field_sortEach, field_put, if_neg (by decide)]
    exact hgrants' _
  · rw [hother _ (.inr rfl)]
    exact h.imported_eq
  · rw [hsame.allLockedRecords_eq]
    exact h.foreign_eq
  · refine LoadedStore.gains_of_alike hsame rfl rfl h.store_eq rfl hvalid hsameaudits ?_
    exact (hsamegrants.append (.refl _)).append (.refl foreign)

theorem exists_writeData_of_appendAudit [DataFormat] {attempt : Attempt}
    (h : files.appendAudit root r = .ok attempt)
    (hread : files.readData (root.child auditsFile) = .ok file) :
    ∃ file', Document.appendAudit file r = .ok file' ∧
      attempt = files.writeData (root.child auditsFile) file' := by
  rw [appendAudit, hread, ok_bind] at h
  obtain ⟨file', happend, h⟩ := bind_eq_ok h
  exact ⟨file', happend, (Except.ok.inj h).symm⟩

/-- Writing the audits file of a store changes neither its configuration nor its lock. -/
theorem readData_beside_audits [DataFormat] (hhome : files.root.hasDirectory files.home = true)
    (hleads : files.LeadsOn root)
    (hdone : (files.writeData (root.child auditsFile) file).done = true) {name : String}
    (hname : name = configFile ∨ name = lockFile) :
    (files.writeData (root.child auditsFile) file).files.readData (root.child name) =
      files.readData (root.child name) := by
  have hstay : auditsFile ≠ ".." ∧ configFile ≠ ".." ∧ lockFile ≠ ".." := by decide
  have hapart : configFile ≠ auditsFile ∧ lockFile ≠ auditsFile := by decide
  apply readData_congr
  rcases hname with rfl | rfl
  · exact find?_child_write hhome hleads hstay.1 hstay.2.1 hapart.1 hdone
  · exact find?_child_write hhome hleads hstay.1 hstay.2.2 hapart.2 hdone

/-- A store whose audits file was written with a record more gained that record. -/
theorem gained_of_appendAudit [DataFormat] {place : String} {attempt : Attempt}
    (hformat : DataFormat.Faithful)
    (hplain : ∀ file', Document.appendAudit file r = .ok file' → (Json.obj file').isPlain = true)
    (hhome : files.root.hasDirectory files.home = true) (hleads : files.LeadsOn root)
    (hload : files.Loads root file audits grants foreign before) (hkeeps : k.KeepsFile file)
    (hdistinct : ∀ ms, field file "audits" = .obj ms → (ms.map Prod.fst).Nodup)
    (hvalid : r.fault? before.model r.package = none)
    (hback : (entryOf r >>= fun entry => auditEntry r.package entry place) = .ok r)
    (happend : files.appendAudit root r = .ok attempt) (hdone : attempt.done = true) :
    attempt.files.Gained k root before r audits grants foreign := by
  obtain ⟨file', hfile', rfl⟩ := exists_writeData_of_appendAudit happend hload.read_eq
  obtain ⟨entry, hentry, hback⟩ := bind_eq_ok hback
  have hreads : ∀ e, entryOf r = .ok e → Regard.Reads auditEntry r.package e r := by
    intro e he
    obtain rfl : entry = e := Except.ok.inj (hentry.symm.trans he)
    exact ⟨place, hback⟩
  exact hload.gained hkeeps hdistinct hvalid hfile' hreads
    (readData_writeData hformat hhome (hplain file' hfile') hdone)
    fun _ hname => readData_beside_audits hhome hleads hdone hname

end Files

namespace Command

variable {files : Files} {network : Network} {o : CertifyOptions} {before : LoadedStore}
  {start : Option Version} {target : Version} {file : Json.Members}

/-- What was certified without a fault is a valid record, and was written. -/
theorem exists_attempt_of_done [SetOrder] [DataFormat]
    (hdone : ((certify o).run files network).exit = .done)
    (hload : (files.loadStore o.store).outcome = .ok before)
    (hreviewed : reviewed o = .ok (start, target)) :
    (certified before o start target).fault? before.model o.package = none ∧
      ∃ attempt, files.appendAudit o.store (certified before o start target) = .ok attempt ∧
        attempt.done = true ∧ ((certify o).run files network).files = attempt.files := by
  obtain ⟨outcome, hrun, hexit, hfiles⟩ := exists_outcome_of_done hdone
  rw [runCertify, Logged.outcome_bind, hload, ok_bind] at hrun
  simp only [hreviewed] at hrun
  split at hrun
  · cases hrun
  · next hvalid =>
    rw [Logged.outcome_bind] at hrun
    obtain ⟨attempt, hattempt, hrun⟩ := bind_eq_ok hrun
    obtain rfl := Except.ok.inj hrun
    refine ⟨hvalid, attempt, hattempt, ?_⟩
    rw [written] at hexit hfiles
    split at hexit
    · next hwritten => exact ⟨hwritten, hfiles.trans (by rw [if_pos hwritten])⟩
    · cases hexit

/-- Whether a command line certifies a record: its store loads, and the entry of the record that
was written reads as that record. An object has each name once, and all texts are plain. -/
structure Certifies [SetOrder] [DataFormat] (files : Files) (network : Network)
    (args : List String) (o : CertifyOptions) (file : Json.Members)
    (audits grants foreign : List AuditRecord) (before : LoadedStore) (r : AuditRecord) :
    Prop where
  home : files.root.hasDirectory files.home = true
  parse_eq : parse files args = some (.certify o)
  loads : files.Loads o.store file audits grants foreign before
  distinct : ∀ ms, field file "audits" = .obj ms → (ms.map Prod.fst).Nodup
  reviewed_eq : ∃ start target, reviewed o = .ok (start, target) ∧ r = certified before o start target
  done : (runLine files network args).exit = .done
  reads_back : ∃ place, (entryOf r >>= fun entry => auditEntry o.package entry place) = .ok r
  plain : ∀ file', Document.appendAudit file r = .ok file' → (Json.obj file').isPlain = true

/-- Certifying changes nothing when something is unusable. When it is done, the store loads again
and holds what it held and the record that was certified: in full where sorting the audits file
leaves its texts as they are, and else in all that verdicts depend on. -/
theorem certify_adds_one_record [SetOrder] [DataFormat] (files : Files) (network : Network)
    (args : List String) :
    let after := runLine files network args
    (after.exit = .unusable → after.files = files) ∧
      (DataFormat.Faithful → ∀ {o file audits grants foreign before r},
        Certifies files network args o file audits grants foreign before r →
        files.LeadsOn o.store →
        after.files.Gained .essential o.store before r audits grants foreign ∧
          ∀ k : Regard, k.KeepsFile file →
            after.files.Gained k o.store before r audits grants foreign) := by
  intro after
  refine ⟨fun hexit => ?_, ?_⟩
  · unfold after runLine at hexit ⊢
    split at hexit
    · exact files_run_of_unusable hexit
    · rfl
  · intro hformat o file audits grants foreign before r h hleads
    obtain ⟨start, target, hreviewed, rfl⟩ := h.reviewed_eq
    obtain ⟨place, hback⟩ := h.reads_back
    have hrun : after = { (certify o).run files network with
        output := Text.unstyled ((certify o).run files network).output } := by
      simp only [after, runLine, h.parse_eq]
    have hexit : after.exit = .done := h.done
    rw [hrun] at hexit ⊢
    dsimp only at hexit ⊢
    obtain ⟨hvalid, attempt, happend, hdone, hfiles⟩ :=
      exists_attempt_of_done hexit (Files.outcome_loadStore_eq_ok_iff.2 ⟨_, _, _, _, h.loads⟩) hreviewed
    have hpackage : (certified before o start target).package = o.package := package_reviewRecord
    rw [← hpackage] at hvalid hback
    have hgained : ∀ k : Regard, k.KeepsFile file →
        attempt.files.Gained k o.store before (certified before o start target) audits grants foreign :=
      fun k hkeeps => Files.gained_of_appendAudit hformat h.plain h.home hleads h.loads hkeeps
        h.distinct hvalid hback happend hdone
    rw [hfiles]
    exact ⟨hgained _ (Regard.keepsFile_essential file), hgained⟩

/-- A store directory below the root, with one file. -/
def storeOf (name : String) (file : Json.Members) : Files :=
  ⟨.directory [(storeDirectory, .directory [(name, .file (.obj file))])], []⟩

/-- The audits file of a base that was reviewed by those that are given as `who`. -/
def auditedBase (who : Json) : Json.Members :=
  [("audits", .obj [("base", .arr [.obj
    [("criteria", .str safeToDeploy), ("version", .str "1.0.0"), ("who", who)]])])]

/-- To certify the tool in a store. -/
def certifyTool (store : String) : CertifyOptions where
  store := .ofText store
  package := "tool"
  version := "1.0.0"
  start := none
  criteria := [safeToRun]
  who := []
  notes := none

def certifyToolLine (store : String) : List String :=
  ["certify", "tool", "1.0.0", "--criteria", safeToRun, "--store", store]

def toolReview : AuditRecord :=
  .full { package := "tool", version := { major := 1, minor := 0, patch := 0 }
          criteria := .single safeToRun }

theorem toolReview_reads_back :
    (entryOf toolReview >>= fun entry => auditEntry "tool" entry auditsFile) = .ok toolReview := by
  have hentry : entryOf toolReview =
      .ok [("criteria", .arr [.str safeToRun]), ("version", .str "1.0.0")] := rfl
  rw [hentry, ok_bind, auditEntry_eq_ok_iff]
  exact ⟨.single safeToRun, [], [], ∅, rfl, rfl, rfl, rfl, .full rfl⟩

theorem exists_certifies [SetOrder] [DataFormat] (files : Files) (store : String)
    (file : Json.Members) (p : LoadedStore → Bool) (hhome : files.root.hasDirectory files.home = true)
    (hparse : parse files (certifyToolLine store) = some (.certify (certifyTool store)))
    (hread : files.readData ((certifyTool store).store.child auditsFile) = .ok file)
    (hdistinct : ∀ ms, field file "audits" = .obj ms → (ms.map Prod.fst).Nodup)
    (hdone : (runLine files Body.missing (certifyToolLine store)).exit = .done)
    (hload : (files.loadStore (certifyTool store).store).outcome.toOption.any p = true)
    (hplain : (Document.appendAudit file toolReview).toOption.all
      (fun file' => (Json.obj file').isPlain) = true) :
    ∃ audits grants foreign before, p before = true ∧
      Certifies files Body.missing (certifyToolLine store) (certifyTool store) file audits grants
        foreign before toolReview := by
  obtain ⟨before, hbefore, hp⟩ := exists_ok_of_any hload
  obtain ⟨_, audits, grants, foreign, hloads⟩ := Files.outcome_loadStore_eq_ok_iff.1 hbefore
  obtain rfl := Except.ok.inj (hread.symm.trans hloads.read_eq)
  have hreviewed : reviewed (certifyTool store) =
      .ok (none, { major := 1, minor := 0, patch := 0 }) := by
    have hversion : Version.parse "1.0.0" = .ok { major := 1, minor := 0, patch := 0 } := rfl
    rw [reviewed, certifyTool, hversion]
    rfl
  exact ⟨audits, grants, foreign, before, hp, hhome, hparse, hloads, hdistinct,
    ⟨none, _, hreviewed, rfl⟩, hdone, ⟨auditsFile, toolReview_reads_back⟩,
    fun file' hfile' => by rwa [hfile'] at hplain⟩

theorem distinct_auditedBase {who : Json} {ms : Json.Members}
    (h : field (auditedBase who) "audits" = .obj ms) : (ms.map Prod.fst).Nodup := by
  cases h
  exact List.nodup_singleton "base"

/-- A section that is not there keeps whatever is regarded of it. -/
theorem forall_mem_of_isSection_null {ms : Json.Members} {p : String × Json → Prop}
    (h : IsSection .null ms) : ∀ m ∈ ms, p m := by
  rcases h with h | ⟨_, rfl⟩
  · cases h
  · exact fun _ hm => absurd hm List.not_mem_nil

theorem keepsFile_auditedBase (name : String) :
    Regard.contents.KeepsFile (auditedBase (.str name)) := by
  refine ⟨fun ms h => ?_, fun _ => forall_mem_of_isSection_null,
    fun _ => forall_mem_of_isSection_null⟩
  · rcases h with h | ⟨h, _⟩
    · obtain rfl := Json.obj.inj h
      intro m hm items hitems e he
      obtain rfl := List.mem_singleton.1 hm
      obtain rfl := Json.arr.inj hitems
      obtain rfl := Json.obj.inj (List.mem_singleton.1 he)
      exact Regard.keepsEntry_contents rfl rfl fun ms h => by cases h
    · cases h

theorem certify_adds_one_record_tool :
    let files := storeOf auditsFile (auditedBase (.str "ada"))
    let line := certifyToolLine storeDirectory
    let o := certifyTool storeDirectory
    DataFormat.Faithful ∧ ∃ audits grants foreign before,
      Certifies files Body.missing line o (auditedBase (.str "ada"))
        audits grants foreign before toolReview ∧ files.LeadsOn o.store ∧
      (runLine files Body.missing line).files.Gained .contents o.store before toolReview audits grants
        foreign := by
  intro files line o
  obtain ⟨audits, grants, foreign, before, _, h⟩ := exists_certifies files storeDirectory
    (auditedBase (.str "ada")) (fun _ => true) rfl rfl rfl (fun _ => distinct_auditedBase)
    (by decide +kernel) (by decide +kernel) (by decide +kernel)
  have hleads : files.LeadsOn o.store := .inl ⟨_, rfl⟩
  have hformat : DataFormat.Faithful := DataFormat.faithful_sorting
  obtain ⟨_, hgained⟩ := (certify_adds_one_record files Body.missing line).2 hformat h hleads
  exact ⟨hformat, audits, grants, foreign, before, h, hleads,
    hgained _ (keepsFile_auditedBase "ada")⟩

/-- Reviewers that are given as the names of a mapping. -/
def mappedReviewers : Json := .obj [("ben", .int 1), ("ada", .int 2)]

def mappedStore : Files := storeOf auditsFile (auditedBase mappedReviewers)

/-- The reviewers of a record; none for an exemption or a grant. -/
def reviewers : AuditRecord → List String
  | .full a => a.who
  | .delta a => a.who
  | .violation v => v.who
  | _ => []

theorem reviewers_contents : reviewers ∘ Regard.contents.record = reviewers := by
  funext r
  cases r with
  | full => rfl
  | delta => rfl
  | exemption => rfl
  | grant => rfl
  | violation => rfl

/-- A store whose runs are safe by default. -/
def runsByDefault : Files := storeOf configFile [("default-criteria", .str safeToRun)]

/-- A path to the store directory by way of a directory that is missing. -/
def detour : String := "missing/../supply-chain"

/-- Certifying need not leave all else as it was. Sorting the audits file changes what is read from a
mapping where a text or a list is meant; and a path that goes back out of a missing directory leads
to files that it did not lead to before the directory was made. -/
theorem exists_certify_that_alters_store :
    (¬∀ (files : Files) (network : Network) (args : List String) (o : CertifyOptions)
        (file : Json.Members) (audits grants foreign : List AuditRecord) (before : LoadedStore)
        (r : AuditRecord),
        Certifies files network args o file audits grants foreign before r →
        files.LeadsOn o.store →
        (runLine files network args).files.Gained .contents o.store before r audits grants foreign) ∧
      ¬∀ (files : Files) (network : Network) (args : List String) (o : CertifyOptions)
        (file : Json.Members) (audits grants foreign : List AuditRecord) (before : LoadedStore)
        (r : AuditRecord),
        Certifies files network args o file audits grants foreign before r →
        Regard.contents.KeepsFile file →
        (runLine files network args).files.Gained .contents o.store before r audits grants foreign := by
  constructor
  · intro hclaim
    obtain ⟨audits, grants, foreign, before, hbefore, h⟩ := exists_certifies mappedStore
      storeDirectory (auditedBase mappedReviewers)
      (fun before => decide ((before.store.recordsFor "base").map reviewers = [["ben", "ada"]]))
      rfl rfl rfl (fun _ => distinct_auditedBase) (by decide +kernel) (by decide +kernel)
      (by decide +kernel)
    obtain ⟨loaded, hloaded, hgains⟩ := hclaim _ _ _ _ _ _ _ _ _ _ h (.inl ⟨_, rfl⟩)
    obtain ⟨later, hlater, hafter⟩ : ∃ later,
        ((runLine mappedStore Body.missing (certifyToolLine storeDirectory)).files.loadStore
          (certifyTool storeDirectory).store).outcome = .ok later ∧
        decide ((later.store.recordsFor "base").map reviewers = [["ada", "ben"]]) = true :=
      exists_ok_of_any (by decide +kernel)
    obtain rfl : loaded = later := Except.ok.inj (hloaded.symm.trans hlater)
    have hsame := congrArg (List.map reviewers) (hgains.elsewhere "base" (by decide))
    rw [List.map_map, List.map_map, reviewers_contents, of_decide_eq_true hbefore,
      of_decide_eq_true hafter] at hsame
    exact absurd hsame (by decide)
  · intro hclaim
    obtain ⟨audits, grants, foreign, before, hbefore, h⟩ := exists_certifies runsByDefault detour []
      (fun before => decide (before.config.defaultCriteria = safeToDeploy))
      rfl rfl rfl (fun ms hms => by cases hms) (by decide +kernel) (by decide +kernel)
      (by decide +kernel)
    have hkeeps : Regard.contents.KeepsFile [] :=
      ⟨fun _ => forall_mem_of_isSection_null, fun _ => forall_mem_of_isSection_null,
        fun _ => forall_mem_of_isSection_null⟩
    obtain ⟨loaded, hloaded, hgains⟩ := hclaim _ _ _ _ _ _ _ _ _ _ h hkeeps
    obtain ⟨later, hlater, hafter⟩ : ∃ later,
        ((runLine runsByDefault Body.missing (certifyToolLine detour)).files.loadStore
          (certifyTool detour).store).outcome = .ok later ∧
        decide (later.config.defaultCriteria = safeToRun) = true :=
      exists_ok_of_any (by decide +kernel)
    obtain rfl : loaded = later := Except.ok.inj (hloaded.symm.trans hlater)
    have hsame := congrArg StoreConfig.defaultCriteria hgains.config_eq
    rw [of_decide_eq_true hbefore, of_decide_eq_true hafter] at hsame
    exact absurd hsame (by decide)

end Command

end Vetting
