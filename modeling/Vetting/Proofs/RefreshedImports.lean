import Vetting.Proofs.CertifiedStore
import Vetting.Proofs.SortedImports

/-! What fetching imports leaves behind: the files as they were, unless every import can be adopted,
and else a store that takes from each import what was fetched for it, and nothing that was locked
before. -/

namespace Vetting

open Document

namespace Files

variable {root : Node} {here : Place} {names : List String} {node : Node} {name other : String}
  {files : Files} {store : Path} {value : Json}

/-- What is found under a name is found in a directory. -/
theorem exists_directory_of_walk (h : walk root here (names ++ [name]) = some node) :
    ∃ l, walk root here names = some (.directory l) := by
  induction names generalizing here with
  | nil =>
    rw [List.nil_append, walk] at h
    split at h
    · next l hl => exact ⟨l, hl⟩
    · cases h
  | cons first names ih =>
    rw [List.cons_append, walk] at h
    split at h
    · next l hl =>
      rw [walk, hl]
      exact ih h
    · cases h

theorem exists_makeWay_of_walk {l : List (String × Node)}
    (h : walk root here names = some (.directory l)) :
    ∃ there, (makeWay root here names).2 = some there := by
  induction names generalizing here with
  | nil => exact ⟨here, rfl⟩
  | cons name names ih =>
    rw [walk] at h
    split at h
    · obtain ⟨entries, hentries⟩ := Node.hasDirectory_iff.1 (hasDirectory_of_walk h)
      rw [makeWay, hentries]
      exact ih h
    · cases h

/-- Beside a file that is found another one can be written, where no directory is. -/
theorem done_write_beside (hfile : files.find? (store.child other) = some node)
    (hname : name ≠ "..") (hfree : ∀ l, files.find? (store.child name) ≠ some (.directory l)) :
    (files.write (store.child name) value).done = true := by
  obtain ⟨l, hl⟩ := exists_directory_of_walk hfile
  have hstart : files.root.hasDirectory (files.start store) = true := hasDirectory_of_walk hl
  have hsame : (makeWay files.root (files.start store) store.parts).1 = files.root :=
    makeWay_of_walk hl
  obtain ⟨there, hway⟩ := exists_makeWay_of_walk hl
  have hthere := hasDirectory_of_makeWay hstart hway
  have hfind : files.find? (store.child name) = files.root.find? (there.step name) := by
    show walk files.root (files.start store) (store.parts ++ [name]) = _
    rw [hsame] at hthere
    rw [walk_of_makeWay hstart hway fun _ hplace => hsame ▸ hplace, walk_step hthere hname,
      step_eq hname]
  have hmade : makeWay files.root (files.start (store.child name))
      (store.child name).parts.dropLast = (files.root, some there) := by
    rw [Path.child, List.dropLast_concat]
    exact Prod.ext hsame hway
  have hlast : (store.child name).parts.getLast? = some name := List.getLast?_concat ..
  rw [write, hmade, hlast]
  dsimp only
  split
  · next l hl => exact absurd (hfind.trans hl) (hfree l)
  · rfl

end Files

namespace Document

variable {file : Json.Members} {config : StoreConfig} {source : ImportSource} {name : String}
  {value : Json}

theorem name_of_importSource (h : importSource name value = .ok source) : source.name = name := by
  unfold importSource at h
  extract_lets place entry at h
  split at h
  · cases h
  · obtain ⟨_, _, h⟩ := bind_eq_ok h
    obtain ⟨_, _, h⟩ := bind_eq_ok h
    obtain ⟨_, _, h⟩ := bind_eq_ok h
    cases h
    rfl

theorem names_of_imports {ms : Json.Members} {imports : List ImportSource}
    (h : ms.mapM (fun m => importSource m.1 m.2) = .ok imports) :
    ms.map Prod.fst = imports.map ImportSource.name := by
  have hread := mapM_eq_ok_iff_forall₂.1 h
  clear h
  induction hread with
  | nil => rfl
  | cons hfirst _ ih => rw [List.map_cons, List.map_cons, ih, name_of_importSource hfirst]

/-- Imports come in order of their names. -/
theorem pairwise_imports (h : Document.config file = .ok config) :
    config.imports.Pairwise fun s t => s.name ≤ t.name := by
  obtain ⟨_, _, h⟩ := bind_eq_ok h
  obtain ⟨_, _, h⟩ := bind_eq_ok h
  obtain ⟨_, _, h⟩ := bind_eq_ok h
  obtain ⟨ms, _, h⟩ := bind_eq_ok h
  obtain ⟨imports, himports, h⟩ := bind_eq_ok h
  cases h
  have hsorted := List.pairwise_map.2 (pairwise_sortBy_key Prod.fst ms)
  rw [names_of_imports himports] at hsorted
  exact List.pairwise_map.1 hsorted

theorem config_of_loadModel {audits : Json.Members} {model : CriteriaModel}
    (h : loadModel audits file = .ok (config, model)) : Document.config file = .ok config := by
  obtain ⟨config', hconfig, h⟩ := bind_eq_ok h
  obtain ⟨_, _, h⟩ := bind_eq_ok h
  obtain ⟨_, _, h⟩ := bind_eq_ok h
  obtain ⟨_, _, h⟩ := bind_eq_ok h
  obtain ⟨_, _, h⟩ := bind_eq_ok h
  obtain ⟨rfl, rfl⟩ := Prod.mk.inj (Except.ok.inj h)
  exact hconfig

theorem imports_of_empty (h : Document.config [] = .ok config) : config.imports = [] := by
  cases h
  rfl

end Document

section Fetched

variable {network : Network} {sources chosen : List ImportSource} {model : CriteriaModel}
  {documents : NameMap Json.Members} {document : ImportSource → Json.Members}
  {taken : ImportSource → List AuditRecord} {counts : List (String × Nat)}

instance : Inhabited Body := ⟨.unreadable⟩

theorem Body.eq_of_answered {b b' : Body} (h : b.answered = .ok b') : b = b' := by
  cases b with
  | failed => cases h
  | value => exact Except.ok.inj h
  | unreadable => exact Except.ok.inj h

/-- What is listed under the names of imports stays where it is. -/
theorem sortBy_importNames {α : Type} (hsorted : sources.Pairwise fun s t => s.name ≤ t.name)
    (f : ImportSource → α) :
    sortBy (fun a b => decide (a.1 < b.1)) (sources.map fun s => (s.name, f s)) =
      sources.map fun s => (s.name, f s) :=
  sortBy_eq_self (List.pairwise_map.2 (hsorted.imp fun hle =>
    decide_eq_false (String.not_lt.2 hle)))

/-- Documents are fetched for all imports, each under the name of its import. -/
theorem exists_documents (h : fetchImports network sources = .ok documents)
    (hsorted : sources.Pairwise fun s t => s.name ≤ t.name) :
    ∃ document : ImportSource → Json.Members,
      (∀ s ∈ sources, (network s.url).document s.name = .ok (document s)) ∧
        documents = NameMap.ofList (sources.map fun s => (s.name, document s)) := by
  have hself : sortBy (fun a b : ImportSource => decide (a.name < b.name)) sources = sources :=
    sortBy_eq_self (hsorted.imp fun hle => decide_eq_false (String.not_lt.2 hle))
  rw [fetchImports, hself] at h
  obtain ⟨bodies, hbodies, h⟩ := bind_eq_ok h
  obtain ⟨list, hlist, h⟩ := bind_eq_ok h
  obtain ⟨body, rfl, hbody⟩ := exists_map_of_mapM_eq_ok hbodies
  obtain ⟨made, rfl, hmade⟩ := exists_map_of_mapM_eq_ok hlist
  have hfetched : ∀ s ∈ sources, ∃ d, (network s.url).document s.name = .ok d ∧
      made (body s) = (s.name, d) := by
    intro s hs
    obtain ⟨b, hanswered, hb⟩ := exists_of_map_eq_ok (hbody s hs)
    have hread := hmade (body s) (List.mem_map_of_mem hs)
    rw [← hb] at hread ⊢
    obtain ⟨d, hd, hmade⟩ := exists_of_map_eq_ok hread
    rw [Body.eq_of_answered hanswered]
    exact ⟨d, hd, hmade.symm⟩
  choose! document hdocument hpair using hfetched
  refine ⟨document, hdocument, ?_⟩
  rw [← Except.ok.inj h, List.map_map]
  exact congrArg NameMap.ofList (List.map_congr_left hpair)

/-- Each import is adopted, and counted. -/
theorem exists_translated
    (h : (Command.importCounts model documents sources).outcome = .ok counts) :
    ∃ translated : ImportSource → List AuditRecord,
      (∀ s ∈ sources, (s.adopt ((documents.get? s.name).getD []) model).outcome =
        .ok (translated s)) ∧
        counts = sources.map fun s => (s.name, (translated s).length) := by
  refine ⟨fun s => (s.adopt ((documents.get? s.name).getD []) model).outcome.toOption.getD [], ?_⟩
  induction sources generalizing counts with
  | nil => exact ⟨fun _ hs => absurd hs List.not_mem_nil, (Except.ok.inj h).symm⟩
  | cons s sources ih =>
    rw [Command.importCounts, Logged.outcome_bind] at h
    obtain ⟨records, hrecords, h⟩ := bind_eq_ok h
    rw [Logged.outcome_bind] at h
    obtain ⟨others, hothers, h⟩ := bind_eq_ok h
    obtain ⟨hrest, hcounts⟩ := ih hothers
    refine ⟨List.forall_mem_cons.2 ⟨?_, hrest⟩, ?_⟩
    · dsimp only
      rw [hrecords]
      rfl
    · dsimp only at hcounts ⊢
      rw [← Except.ok.inj h, List.map_cons, ← hcounts, hrecords]
      rfl

/-- Locked documents of configured imports are adopted in the order in which they are locked. -/
theorem outcome_allLockedRecords
    (hfind : ∀ s ∈ chosen, sources.find? (fun t => t.name = s.name) = some s)
    (hadopt : ∀ s ∈ chosen, (s.adopt (document s) model).outcome = .ok (taken s)) :
    (allLockedRecords model sources (chosen.map fun s => (s.name, .obj (document s)))).outcome =
      .ok (chosen.flatMap taken) := by
  induction chosen with
  | nil => rfl
  | cons s chosen ih =>
    obtain ⟨hfirst, hrest⟩ := List.forall_mem_cons.1 hfind
    obtain ⟨hadoptfirst, hadoptrest⟩ := List.forall_mem_cons.1 hadopt
    have hvalue : (Json.obj (document s)).orElse (.obj []) = .obj (document s) := by
      rw [Json.orElse, Json.isGiven]
      cases document s with
      | nil => rfl
      | cons => rfl
    have hlocked : (lockedRecords model sources s.name (.obj (document s))).outcome =
        .ok (taken s) := by
      rw [lockedRecords, hfirst]
      dsimp only
      rw [hvalue]
      exact hadoptfirst
    rw [List.map_cons, allLockedRecords, Logged.outcome_bind, hlocked, ok_bind,
      Logged.outcome_bind, ih hrest hadoptrest]
    rfl

/-- Documents under distinct names are locked in order of the names. -/
theorem lockValue_ofList (document : ImportSource → Json.Members)
    (hsorted : sources.Pairwise fun s t => s.name ≤ t.name)
    (hdistinct : (sources.map ImportSource.name).Nodup) :
    (∀ s ∈ sources, (NameMap.ofList (sources.map fun s => (s.name, document s))).get? s.name =
      some (document s)) ∧
      lockValue (NameMap.ofList (sources.map fun s => (s.name, document s))) =
        sources.map fun s => (s.name, .obj (document s)) := by
  have hascending : (sources.map fun s => (s.name, document s)).Pairwise (·.1 < ·.1) := by
    rw [List.pairwise_map]
    have hne : sources.Pairwise fun s t => s.name ≠ t.name := List.pairwise_map.1 hdistinct
    refine hsorted.imp₂ (fun s t hle hne => ?_) hne
    exact String.not_le.1 fun hge => hne (String.le_antisymm hle hge)
  have hlist : NameMap.ofList (sources.map fun s => (s.name, document s)) =
      ⟨sources.map fun s => (s.name, document s), hascending⟩ :=
    NameMap.ofList_entries ⟨_, hascending⟩
  have hnodup : ((sources.map fun s => (s.name, document s)).map Prod.fst).Nodup := by
    rw [List.map_map]
    exact hdistinct
  rw [hlist]
  constructor
  · intro s hs
    have hmem : (s.name, document s) ∈ (sources.map fun s => (s.name, document s)).filter
        fun m => decide (m.1 = s.name) :=
      List.mem_filter.2 ⟨List.mem_map_of_mem hs, decide_eq_true rfl⟩
    rw [filter_name_of_nodup hnodup] at hmem
    obtain ⟨d, hd, hpair⟩ := List.mem_map.1 hmem
    exact (Option.mem_toList.1 hd).trans (congrArg some (Prod.mk.inj hpair).2)
  · rw [lockValue, List.map_map]
    rfl

end Fetched

namespace Command

variable {files : Files} {network : Network} {root : Path} {o : Outcome} {file : Json.Members}
  {audits grants foreign : List AuditRecord} {before : LoadedStore}

/-- What is said of imports that were refreshed. -/
def refreshReport (root : Path) (counts : List (String × Nat)) : String :=
  String.join (counts.map fun c => s!"{c.1}: {c.2} records\n") ++
    s!"Imports written to: {root.child lockFile}\n"

/-- Fetching that does not fail finds no imports, or adopts and locks all of them. -/
theorem exists_of_runFetchImports [DataFormat]
    (h : (runFetchImports files network root).outcome = .ok o) :
    ∃ before, (files.loadStore root).outcome = .ok before ∧
      (before.config.imports = [] ∧ o.exit = .done ∧ o.files = files ∨
        before.config.imports ≠ [] ∧ ∃ documents counts,
          Vetting.fetchImports network before.config.imports = .ok documents ∧
            (importCounts before.model documents before.config.imports).outcome = .ok counts ∧
            o = written (root.child lockFile) (files.lockImports root (lockValue documents))
              (refreshReport root (sortBy (fun a b => decide (a.1 < b.1)) counts))) := by
  rw [runFetchImports, Logged.outcome_bind] at h
  obtain ⟨before, hbefore, h⟩ := bind_eq_ok h
  refine ⟨before, hbefore, ?_⟩
  dsimp only at h
  split at h
  · next hnone =>
    cases h
    exact .inl ⟨List.isEmpty_iff.1 hnone, rfl, rfl⟩
  · next hsome =>
    rw [Logged.outcome_bind] at h
    obtain ⟨documents, hdocuments, h⟩ := bind_eq_ok h
    rw [Logged.outcome_bind] at h
    obtain ⟨counts, hcounts, h⟩ := bind_eq_ok h
    refine .inr ⟨fun hnil => hsome (by rw [hnil]; rfl), documents, counts, hdocuments, hcounts, ?_⟩
    exact (Except.ok.inj h).symm

/-- The lock of a store with imports can be written: its directory holds the configuration. -/
theorem done_lockImports [DataFormat] (h : files.Loads root file audits grants foreign before)
    (himports : before.config.imports ≠ []) (documents : Json.Members) :
    (files.lockImports root documents).done = true ∧ files.LeadsOn root := by
  obtain ⟨config, hconfig, hmodel⟩ := h.model_eq
  obtain ⟨lock, hlock, _⟩ := h.imported_eq
  have hread : Document.config config = .ok before.config := config_of_loadModel hmodel
  cases hfind : files.find? (root.child configFile) with
  | none =>
    rw [Files.readData, hfind] at hconfig
    obtain rfl := Except.ok.inj hconfig
    exact absurd (imports_of_empty hread) himports
  | some node =>
    have hfree : ∀ l, files.find? (root.child lockFile) ≠ some (.directory l) := by
      intro l hl
      rw [Files.readData, hl] at hlock
      cases hlock
    exact ⟨Files.done_write_beside hfind (by decide) hfree,
      .inl (Files.exists_directory_of_walk hfind)⟩

/-- Fetching that is not done, or finds no imports, leaves the files as they are. -/
theorem files_fetchImports [SetOrder] [DataFormat]
    (h : ((fetchImports root).run files network).exit ≠ .done ∨
    ∀ before, (files.loadStore root).outcome = .ok before → before.config.imports = []) :
    ((fetchImports root).run files network).files = files := by
  rw [run] at h ⊢
  cases hrun : (runFetchImports files network root).outcome with
  | error f =>
    simp only [conclude, hrun, faulted]
    split
    · rfl
    · rfl
  | ok o =>
    simp only [conclude, hrun] at h ⊢
    obtain ⟨before, hbefore, ⟨_, _, hfiles⟩ | ⟨himports, documents, counts, _, _, rfl⟩⟩ :=
      exists_of_runFetchImports hrun
    · exact hfiles
    · obtain ⟨_, _, _, _, hloads⟩ := Files.outcome_loadStore_eq_ok_iff.1 hbefore
      obtain ⟨hdone, _⟩ := done_lockImports hloads himports (lockValue documents)
      rcases h with hexit | hnone
      · exact absurd (by rw [written, if_pos hdone]) hexit
      · exact absurd (hnone before hbefore) himports

/-- Whether a command line refreshes the imports of a store: some are configured, each under a name
of its own, the work is done, and all texts that are locked are plain. -/
structure Refreshes [SetOrder] [DataFormat] (files : Files) (network : Network)
    (args : List String) (root : Path) (file : Json.Members)
    (audits grants foreign : List AuditRecord) (before : LoadedStore) : Prop where
  home : files.root.hasDirectory files.home = true
  parse_eq : parse files args = some (.fetchImports root)
  loads : files.Loads root file audits grants foreign before
  imports_ne : before.config.imports ≠ []
  distinct : (before.config.imports.map ImportSource.name).Nodup
  done : (runLine files network args).exit = .done
  plain : ∀ s ∈ before.config.imports, Json.isPlainText s.name = true ∧
    ∀ document, (network s.url).document s.name = .ok document → (Json.obj document).isPlain = true

/-- Whether records that are taken from an import are alike those that the document which is fetched
for it is adopted as. -/
def Takes (k : Regard) (network : Network) (model : CriteriaModel) (source : ImportSource)
    (taken : List AuditRecord) : Prop :=
  ∃ document adopted, (network source.url).document source.name = .ok document ∧
    (source.adopt document model).outcome = .ok adopted ∧ k.Alike taken adopted

/-- A store after its imports were refreshed: what is its own is as before, and what is foreign is
what is taken from its imports, as many records from each as were counted. -/
structure Refreshed (after : Outcome) (root : Path) (file : Json.Members)
    (audits grants : List AuditRecord) (before later : LoadedStore)
    (taken : ImportSource → List AuditRecord) : Prop where
  loads : after.files.Loads root file audits grants (before.config.imports.flatMap taken) later
  model_eq : later.model = before.model
  config_eq : later.config = before.config
  imported_eq : later.imported.map Prod.fst = before.config.imports.map ImportSource.name
  output_eq : after.output = Text.unstyled (refreshReport root
    (before.config.imports.map fun s => (s.name, (taken s).length)))

variable {args : List String}

theorem Refreshes.pairwise_imports [SetOrder] [DataFormat]
    (h : Refreshes files network args root file audits grants foreign before) :
    before.config.imports.Pairwise fun s t => s.name ≤ t.name := by
  obtain ⟨config, _, hmodel⟩ := h.loads.model_eq
  exact Document.pairwise_imports (config_of_loadModel hmodel)

/-- With documents locked that can be adopted when they are sorted, a store loads what is
adopted. -/
theorem Refreshes.exists_loads_relocked [SetOrder] [DataFormat]
    {document : ImportSource → Json.Members} {taken : ImportSource → List AuditRecord}
    (h : Refreshes files network args root file audits grants foreign before)
    (hformat : DataFormat.Faithful) (hplain : ∀ s ∈ before.config.imports,
      Json.isPlainText s.name = true ∧ (Json.obj (document s)).isPlain = true)
    (hadopt : ∀ s ∈ before.config.imports,
      (s.adopt (Json.sortEach (document s)) before.model).outcome = .ok (taken s)) :
    ∃ later, (files.lockImports root
        (before.config.imports.map fun s => (s.name, .obj (document s)))).files.Loads root file
          audits grants (before.config.imports.flatMap taken) later ∧
      later.model = before.model ∧ later.config = before.config ∧
        later.imported.map Prod.fst = before.config.imports.map ImportSource.name := by
  have hsorted := h.pairwise_imports
  obtain ⟨hdone, hleads⟩ := done_lockImports h.loads h.imports_ne
    (before.config.imports.map fun s => (s.name, .obj (document s)))
  have hlocked : (Json.obj (before.config.imports.map fun s =>
      (s.name, Json.obj (document s)))).isPlain = true := by
    rw [Json.isPlain, Json.havePlain_eq_all, List.all_map, List.all_eq_true]
    exact fun s hs => Bool.and_eq_true_iff.2 (hplain s hs)
  have hlock := Files.readData_writeData hformat h.home hlocked hdone
  rw [Json.sortEach_eq, sortBy_importNames hsorted fun s => Json.obj (document s),
    List.map_map] at hlock
  have hbeside : ∀ name, name = auditsFile ∨ name = configFile →
      (files.lockImports root (before.config.imports.map fun s =>
        (s.name, .obj (document s)))).files.readData (root.child name) =
          files.readData (root.child name) := by
    intro name hname
    obtain ⟨hother, hne⟩ : name ≠ ".." ∧ name ≠ lockFile := by
      rcases hname with rfl | rfl <;> decide
    exact Files.readData_congr
      (Files.find?_child_write h.home hleads (by decide) hother hne hdone)
  obtain ⟨config, hconfig, hmodel⟩ := h.loads.model_eq
  let later : LoadedStore :=
    { model := before.model, config := before.config
      imported := before.config.imports.map fun s => (s.name, .obj (Json.sortEach (document s)))
      store := .ofRecords before.model
        (audits ++ before.config.others grants (before.config.imports.flatMap taken)) }
  refine ⟨later, ⟨?_, ⟨config, ?_, hmodel⟩, h.loads.audits_eq, h.loads.grants_eq, ⟨_, hlock, ?_⟩,
    ?_, rfl⟩, rfl, rfl, ?_⟩
  · rw [hbeside _ (.inl rfl), h.loads.read_eq]
  · rw [hbeside _ (.inr rfl), hconfig]
  · have hmember : ∀ s : ImportSource, (Json.sortMember ∘ fun s : ImportSource =>
        (s.name, Json.obj (document s))) s = (s.name, .obj (Json.sortEach (document s))) := by
      intro s
      rw [Function.comp, Json.sortMember, Json.sortMembers_obj]
    rw [List.map_congr_left fun s _ => hmember s]
    exact (sortBy_importNames hsorted fun s => Json.obj (Json.sortEach (document s))).symm
  · exact outcome_allLockedRecords
      (fun s hs => (find?_key_eq_some_iff h.distinct).2 ⟨hs, rfl⟩) hadopt
  · rw [List.map_map]
    rfl

theorem written_of_done {path : Path} {a : Attempt} {output : String}
    (h : (written path a output).exit = .done) :
    written path a output = { exit := .done, files := a.files, output } := by
  rw [written] at h ⊢
  split at h
  · next hdone => rw [if_pos hdone]
  · cases h

/-- What refreshing imports locked, and said: the document that was fetched for each import, and how
many records it was adopted as. -/
theorem Refreshes.exists_documents [SetOrder] [DataFormat]
    (h : Refreshes files network args root file audits grants foreign before) :
    ∃ (document : ImportSource → Json.Members) (adopted : ImportSource → List AuditRecord),
      (∀ s ∈ before.config.imports, (network s.url).document s.name = .ok (document s) ∧
        (s.adopt (document s) before.model).outcome = .ok (adopted s)) ∧
      (runLine files network args).files = (files.lockImports root
        (before.config.imports.map fun s => (s.name, .obj (document s)))).files ∧
      (runLine files network args).output = Text.unstyled (refreshReport root
        (before.config.imports.map fun s => (s.name, (adopted s).length))) := by
  have hrun : runLine files network args = { (fetchImports root).run files network with
      output := Text.unstyled ((fetchImports root).run files network).output } := by
    simp only [runLine, h.parse_eq]
  have hexit := h.done
  rw [hrun] at hexit ⊢
  obtain ⟨o, houtcome, hexit, hfiles⟩ := exists_outcome_of_done hexit
  have houtput : ((fetchImports root).run files network).output = o.output := by
    simp only [run, conclude, houtcome]
  have hload := Files.outcome_loadStore_eq_ok_iff.2 ⟨_, _, _, _, h.loads⟩
  obtain ⟨before', hbefore, hcases⟩ := exists_of_runFetchImports houtcome
  obtain rfl : before = before' := Except.ok.inj (hload.symm.trans hbefore)
  obtain ⟨hnone, _⟩ | ⟨_, documents, counts, hdocuments, hcounts, rfl⟩ := hcases
  · exact absurd hnone h.imports_ne
  · have hwritten := written_of_done hexit
    have hsorted := h.pairwise_imports
    obtain ⟨document, hfetched, rfl⟩ := Vetting.exists_documents hdocuments hsorted
    obtain ⟨hget, hlock⟩ := lockValue_ofList document hsorted h.distinct
    obtain ⟨adopted, hadopted, rfl⟩ := exists_translated hcounts
    refine ⟨document, adopted, fun s hs => ⟨hfetched s hs, ?_⟩, ?_, ?_⟩
    · have hs' := hadopted s hs
      rwa [hget s hs, Option.getD_some] at hs'
    · rw [hwritten, hlock] at hfiles
      exact hfiles
    · rw [hwritten, sortBy_importNames hsorted] at houtput
      exact congrArg Text.unstyled houtput

/-- Refreshing imports is all or nothing. When it is not done, or there are none, no file changes.
When it is done the store loads again, from the same audits and configuration; what it takes from
each import is what the document that was fetched for it is adopted as: in full where sorting the
document leaves its texts as they are, and else in all that verdicts depend on. -/
theorem refresh_is_all_or_nothing [SetOrder] [DataFormat] (files : Files) (network : Network)
    (args : List String) :
    let after := runLine files network args
    (∀ root, parse files args = some (.fetchImports root) → (after.exit ≠ .done ∨
        ∀ before, (files.loadStore root).outcome = .ok before → before.config.imports = []) →
      after.files = files) ∧
    (DataFormat.Faithful → ∀ {root file audits grants foreign before},
      Refreshes files network args root file audits grants foreign before →
        ∃ later taken, Refreshed after root file audits grants before later taken ∧
          ∀ s ∈ before.config.imports, Takes .essential network before.model s (taken s) ∧
            ∀ k : Regard, k.Collects →
              (∀ document, (network s.url).document s.name = .ok document →
                k.KeepsRecords document) →
              Takes k network before.model s (taken s)) := by
  intro after
  constructor
  · intro root hparse h
    have hrun : after = { (fetchImports root).run files network with
        output := Text.unstyled ((fetchImports root).run files network).output } := by
      simp only [after, runLine, hparse]
    rw [hrun] at h ⊢
    exact files_fetchImports h
  · intro hformat root file audits grants foreign before h
    obtain ⟨document, adopted, hfetched, hfiles, houtput⟩ := h.exists_documents
    have htaken : ∀ s ∈ before.config.imports, ∃ taken,
        (s.adopt (Json.sortEach (document s)) before.model).outcome = .ok taken ∧
          Regard.essential.Alike taken (adopted s) := fun s hs =>
      ImportSource.exists_adopt_sorted Regard.collects_essential (Regard.keepsRecords_essential _)
        (hfetched s hs).2
    choose! taken htaken halike using htaken
    obtain ⟨later, hloads, hmodel', hconfig', himported⟩ :=
      h.exists_loads_relocked hformat (fun s hs => (h.plain s hs).imp_right fun hdocument =>
        hdocument _ (hfetched s hs).1) htaken
    refine ⟨later, taken, ⟨?_, hmodel', hconfig', himported, ?_⟩, fun s hs => ⟨?_, ?_⟩⟩
    · rw [hfiles]
      exact hloads
    · rw [houtput]
      refine congrArg (fun counts => Text.unstyled (refreshReport root counts)) ?_
      exact List.map_congr_left fun s hs => by rw [(halike s hs).length_eq]
    · obtain ⟨hdocument, hadopted⟩ := hfetched s hs
      exact ⟨document s, adopted s, hdocument, hadopted, halike s hs⟩
    · intro k hk hkeeps
      obtain ⟨hdocument, hadopted⟩ := hfetched s hs
      obtain ⟨sorted, hsame, halike'⟩ :=
        ImportSource.exists_adopt_sorted hk (hkeeps _ hdocument) hadopted
      obtain rfl : taken s = sorted := Except.ok.inj ((htaken s hs).symm.trans hsame)
      exact ⟨document s, adopted s, hdocument, hadopted, halike'⟩

/-- A store with one import configured, and another one locked. -/
def importingStore : Files :=
  ⟨.directory [(storeDirectory, .directory
    [(configFile, .file (.obj [("imports", .obj [("mirror", .str "audits")])])),
      (lockFile, .file (.obj [("retired", .obj [])]))])], []⟩

/-- The network that publishes a document at every address. -/
def publishing (document : Json.Members) : Network := fun _ => .value (.obj document)

theorem exists_refreshes [SetOrder] [DataFormat] (document : Json.Members) (p : LoadedStore → Bool)
    (hload : (importingStore.loadStore (.ofText storeDirectory)).outcome.toOption.any
      (fun before => p before &&
        decide (before.config.imports.map ImportSource.name = ["mirror"])) = true)
    (hdone : (runLine importingStore (publishing document) ["fetch-imports"]).exit = .done)
    (hplain : (Json.obj document).isPlain = true) :
    ∃ file audits grants foreign before, p before = true ∧
      before.config.imports.map ImportSource.name = ["mirror"] ∧
      Refreshes importingStore (publishing document) ["fetch-imports"] (.ofText storeDirectory) file
        audits grants foreign before := by
  obtain ⟨before, hbefore, hp⟩ := exists_ok_of_any hload
  obtain ⟨file, audits, grants, foreign, hloads⟩ := Files.outcome_loadStore_eq_ok_iff.1 hbefore
  obtain ⟨hp, hnames⟩ := Bool.and_eq_true_iff.1 hp
  have hnames := of_decide_eq_true hnames
  refine ⟨file, audits, grants, foreign, before, hp, hnames, rfl, rfl, hloads, fun hnil => ?_, ?_,
    hdone, fun s hs => ⟨?_, fun fetched hfetched => ?_⟩⟩
  · rw [hnil] at hnames
    cases hnames
  · rw [hnames]
    exact List.nodup_singleton "mirror"
  · have hname : s.name ∈ before.config.imports.map ImportSource.name := List.mem_map_of_mem hs
    rw [hnames] at hname
    rw [List.mem_singleton.1 hname]
    decide
  · obtain rfl : document = fetched := Except.ok.inj hfetched
    exact hplain

theorem refresh_is_all_or_nothing_mirror :
    let document := auditedBase (.str "ada")
    let after := runLine importingStore (publishing document) ["fetch-imports"]
    let failed := runLine importingStore Body.missing ["fetch-imports"]
    DataFormat.Faithful ∧ (∃ file audits grants foreign before later taken,
      Refreshes importingStore (publishing document) ["fetch-imports"] (.ofText storeDirectory) file
        audits grants foreign before ∧
      Refreshed after (.ofText storeDirectory) file audits grants before later taken ∧
      ∀ s ∈ before.config.imports, Takes .contents (publishing document) before.model s (taken s)) ∧
    failed.exit ≠ .done ∧ failed.files = importingStore := by
  intro document after failed
  have hfailed : failed.exit ≠ .done := by decide +kernel
  have hformat : DataFormat.Faithful := DataFormat.faithful_sorting
  obtain ⟨file, audits, grants, foreign, before, _, _, h⟩ := exists_refreshes document
    (fun _ => true) (by decide +kernel) (by decide +kernel) (by decide +kernel)
  obtain ⟨later, taken, hrefreshed, htakes⟩ := (refresh_is_all_or_nothing _ _ _).2 hformat h
  have hkeeps := keepsFile_auditedBase "ada"
  refine ⟨hformat,
    ⟨file, audits, grants, foreign, before, later, taken, h, hrefreshed, fun s hs => ?_⟩, hfailed,
    (refresh_is_all_or_nothing _ _ _).1 (.ofText storeDirectory) rfl (.inl hfailed)⟩
  obtain ⟨_, hcontents⟩ := htakes s hs
  refine hcontents _ Regard.collects_contents fun fetched hfetched => ?_
  obtain rfl : document = fetched := Except.ok.inj hfetched
  exact ⟨hkeeps.audits, hkeeps.trusted⟩

/-- Records may change on their way through the lock. Its objects are sorted, and with them what is
read of a mapping where a list is meant. -/
theorem exists_refresh_that_alters_records :
    ¬∀ (files : Files) (network : Network) (args : List String) (root : Path) (file : Json.Members)
        (audits grants foreign : List AuditRecord) (before : LoadedStore),
        Refreshes files network args root file audits grants foreign before →
        ∃ later taken,
          Refreshed (runLine files network args) root file audits grants before later taken ∧
          ∀ s ∈ before.config.imports, Takes .contents network before.model s (taken s) := by
  intro hclaim
  let network := publishing (auditedBase mappedReviewers)
  obtain ⟨file, audits, grants, foreign, before, hbefore, hnames, h⟩ := exists_refreshes
    (auditedBase mappedReviewers) (fun before => decide (before.config.imports.map (fun s =>
      (s.adopt (auditedBase mappedReviewers) before.model).outcome.toOption.map fun adopted =>
        (recordsOf "base" adopted).map reviewers) = [some [["ben", "ada"]]]))
    (by decide +kernel) (by decide +kernel) (by decide +kernel)
  obtain ⟨later, taken, hrefreshed, htakes⟩ := hclaim _ _ _ _ _ _ _ _ _ h
  obtain ⟨loaded, hloaded, hafter⟩ : ∃ loaded,
      ((runLine importingStore network ["fetch-imports"]).files.loadStore
        (.ofText storeDirectory)).outcome = .ok loaded ∧
      decide ((allLockedRecords loaded.model loaded.config.imports
        loaded.imported).outcome.toOption.map (fun foreign =>
          (recordsOf "base" foreign).map reviewers) = some [["ada", "ben"]]) = true :=
    exists_ok_of_any (by decide +kernel)
  have hlater := Files.outcome_loadStore_eq_ok_iff.2 ⟨_, _, _, _, hrefreshed.loads⟩
  obtain rfl : later = loaded := Except.ok.inj (hlater.symm.trans hloaded)
  obtain ⟨s, himports, _⟩ := List.map_eq_singleton_iff.1 hnames
  obtain ⟨document, adopted, hdocument, hadopted, halike⟩ := htakes s (by rw [himports]; simp)
  obtain rfl : auditedBase mappedReviewers = document := Except.ok.inj hdocument
  have hfetched : (recordsOf "base" adopted).map reviewers = [["ben", "ada"]] := by
    have hbefore := of_decide_eq_true hbefore
    rw [himports, List.map_singleton, hadopted] at hbefore
    exact Option.some.inj (List.singleton_inj.1 hbefore)
  have htaken : (recordsOf "base" (taken s)).map reviewers = [["ada", "ben"]] := by
    have hafter := of_decide_eq_true hafter
    rw [hrefreshed.loads.foreign_eq, himports, List.flatMap_singleton] at hafter
    exact Option.some.inj hafter
  have hsame := congrArg (List.map reviewers) (halike "base")
  rw [List.map_map, List.map_map, reviewers_contents, htaken, hfetched] at hsame
  exact absurd hsame (by decide)

end Command

end Vetting
