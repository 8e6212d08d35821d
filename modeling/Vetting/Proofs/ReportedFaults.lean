import Vetting.Proofs.CertifiedStore

/-! Malformed data. Readers report what is wrong with a file and where, but for accidents with
values that they go through, or count by, without a look at their shape. -/

namespace Vetting

theorem DependencyGraph.unknownPackage_of_addDependency {g : DependencyGraph} {e : Dependency}
    {f : Fault} (h : g.addDependency e = .error f) : ∃ id, f = .unknownPackage id := by
  unfold addDependency at h
  split at h
  · split at h
    · split at h
      · cases h
      · cases h
    · exact ⟨_, (Except.error.inj h).symm⟩
  · exact ⟨_, (Except.error.inj h).symm⟩

namespace Document

/-- Whether what a reading gives comes of values of some shape, and every fault of it is one that
commands report or an accident that some value of another shape is behind. -/
def ReportsBut {α : Type} (accident : Fault → Prop) (shaped : Prop) : Read α → Prop
  | .ok _ => shaped
  | .error f => f.isReported = true ∨ accident f ∧ ¬shaped

namespace ReportsBut

variable {α β : Type} {accident : Fault → Prop} {P Q : Prop} {x : Read α} {f : α → Read β}
  {place : String} {problem : Problem}

theorem fail : ReportsBut accident P (Document.fail (α := α) place problem) := .inl rfl

theorem congr (h : ReportsBut accident P x) (hiff : P ↔ Q) : ReportsBut accident Q x := by
  rwa [← propext hiff]

theorem bind (hx : ReportsBut accident P x) (hf : ∀ a, x = .ok a → ReportsBut accident Q (f a)) :
    ReportsBut accident (P ∧ Q) (x >>= f) := by
  cases x with
  | error e => exact hx.imp_right fun h => ⟨h.1, fun hpq => h.2 hpq.1⟩
  | ok a =>
    have hrest := hf a rfl
    rw [ok_bind]
    cases hb : f a with
    | ok b =>
      rw [hb] at hrest
      exact ⟨hx, hrest⟩
    | error e =>
      rw [hb] at hrest
      exact hrest.imp_right fun h => ⟨h.1, fun hpq => h.2 hpq.2⟩

/-- What is read first is reported in any case. -/
theorem after (hx : ReportsBut accident True x)
    (hf : ∀ a, x = .ok a → ReportsBut accident Q (f a)) : ReportsBut accident Q (x >>= f) :=
  (hx.bind hf).congr (iff_of_eq (true_and Q))

/-- What is read last is reported in any case. -/
theorem before (hx : ReportsBut accident P x)
    (hf : ∀ a, x = .ok a → ReportsBut accident True (f a)) : ReportsBut accident P (x >>= f) :=
  (hx.bind hf).congr (iff_of_eq (and_true P))

theorem map {f : α → β} (h : ReportsBut accident P x) : ReportsBut accident P (x.map f) := by
  cases x with
  | ok => exact h
  | error => exact h

theorem mapM {f : α → Read β} {P : α → Prop} {l : List α}
    (h : ∀ a ∈ l, ReportsBut accident (P a) (f a)) :
    ReportsBut accident (∀ a ∈ l, P a) (l.mapM f) := by
  induction l with
  | nil => exact fun _ ha => absurd ha List.not_mem_nil
  | cons a as ih =>
    rw [List.mapM_cons]
    have htail : ReportsBut accident (∀ b ∈ as, P b) (as.mapM f) :=
      ih fun b hb => h b (List.mem_cons_of_mem _ hb)
    refine ((h a (List.mem_cons_self ..)).bind fun b _ => htail.before fun bs _ => ?_).congr
      List.forall_mem_cons.symm
    exact trivial

theorem all {f : α → Read β} {l : List α} (h : ∀ a ∈ l, ReportsBut accident True (f a)) :
    ReportsBut accident True (l.mapM f) :=
  (mapM h).congr (iff_true_intro fun _ _ => trivial)

theorem indexed {read : Nat → α → Read β} {P : α → Prop} {l : List α}
    (h : ∀ i, ∀ a ∈ l, ReportsBut accident (P a) (read i a)) :
    ReportsBut accident (∀ a ∈ l, P a) (Document.indexed read l) := by
  have hall : ReportsBut accident (∀ c ∈ l.zipIdx, P c.1)
      (l.zipIdx.mapM fun c => read c.2 c.1) :=
    mapM fun c hc => h c.2 c.1 (List.fst_mem_of_mem_zipIdx hc)
  refine hall.congr ?_
  rw [← List.forall_mem_map, List.zipIdx_map_fst]

end ReportsBut

/-! The shapes that are taken for granted. -/

/-- Whether a value can be gone through. -/
def HasParts : Json → Prop
  | .arr _ => True
  | .str _ => True
  | .obj _ => True
  | _ => False

/-- Whether what a field gives can be gone through. -/
def Listed (entry : Json.Members) (name : String) : Prop :=
  HasParts ((field entry name).orElse (.arr []))

/-- Whether every entry of a section is of some kind, whatever package it stands under. -/
def EachEntry (P : Json.Members → Prop) (value : Json) : Prop :=
  ∀ ms, value = .obj ms → ∀ m ∈ ms, ∀ items, m.2 = .arr items → ∀ entry, .obj entry ∈ items →
    P entry

structure AuditShaped (entry : Json.Members) : Prop where
  who : field entry "who" = .null ∨ HasParts (field entry "who")
  origins : Listed entry "aggregated-from"

structure AuditsShaped (file : Json.Members) : Prop where
  audits : EachEntry AuditShaped (field file "audits")
  grants : EachEntry (fun entry => Listed entry "aggregated-from") (field file "trusted")

def PolicyShaped (value : Json) : Prop := ∃ entry, value.orElse (.obj []) = .obj entry

def ImportShaped (value : Json) : Prop :=
  ∀ entry, value = .obj entry → Listed entry "criteria-map" ∧ Listed entry "exclude"

structure ConfigShaped (file : Json.Members) : Prop where
  policies : ∀ ms, (field file "policy").orElse (.obj []) = .obj ms → ∀ m ∈ ms, PolicyShaped m.2
  imports : ∀ ms, (field file "imports").orElse (.obj []) = .obj ms → ∀ m ∈ ms, ImportShaped m.2

/-- Whether a value can be taken for a whole number. A decimal can if it is no infinite double. -/
def Counts : Json → Prop
  | .bool _ => True
  | .int _ => True
  | .decimal m p => isFiniteDouble m.natAbs (Nat.pow 10 p)
  | .str s => (Text.wholeNumber? s).isSome
  | _ => False

/-- Whether what counts the changes between two versions can be counted by. -/
def Counted (entry : Json.Members) : Prop :=
  ∀ name ∈ ["insertions", "deletions", "files_changed"],
    Counts ((entry.lookup name).getD (.int 0))

def DiffsShaped (file : Json.Members) : Prop :=
  ∀ packages, (field file "diffs").orElse (.obj []) = .obj packages →
    ∀ p ∈ packages, ∀ deltas, p.2 = .obj deltas → ∀ d ∈ deltas, ∀ entry, d.2 = .obj entry →
      Counted entry

/-! The readers. -/

section Readers

variable {accident : Fault → Prop} {value : Json} {package place name : String}
  {entry file : Json.Members}

theorem reportsBut_parts : ReportsBut (· = .illShaped) (HasParts value) (parts value) := by
  cases value with
  | arr => trivial
  | str => trivial
  | obj => trivial
  | _ => exact .inr ⟨rfl, id⟩

theorem reportsBut_names : ReportsBut accident True (names value place) := by
  cases value with
  | null => trivial
  | str => trivial
  | arr items =>
    rw [names]
    split
    · trivial
    · exact .fail
  | _ => exact .fail

theorem reportsBut_version : ReportsBut accident True (version value place) := by
  unfold version
  split
  · trivial
  · exact .fail

theorem reportsBut_range : ReportsBut accident True (range value place) := by
  unfold range
  split
  · trivial
  · exact .fail

theorem reportsBut_flag {default : Json} :
    ReportsBut accident True (flag entry name default place) := by
  unfold flag
  split
  · trivial
  · exact .fail

theorem reportsBut_dependencyCriteria :
    ReportsBut accident True (dependencyCriteria value place) := by
  unfold dependencyCriteria
  split
  · trivial
  · exact .before (.all fun m _ => reportsBut_names.before fun _ _ => trivial) fun _ _ => trivial
  · exact .fail

theorem reportsBut_packageEntries : ReportsBut accident True (packageEntries value place) := by
  unfold packageEntries
  split
  · trivial
  · refine .all fun m _ => ?_
    obtain ⟨package, value⟩ := m
    dsimp only
    split
    · split
      · trivial
      · exact .fail
    · exact .fail
  · exact .fail

theorem eachEntry_iff {P : Json.Members → Prop} {sections : List (String × List Json.Members)}
    (h : packageEntries value place = .ok sections) :
    EachEntry P value ↔ ∀ s ∈ sections, ∀ entry ∈ s.2, P entry := by
  unfold packageEntries at h
  split at h
  · obtain rfl := Except.ok.inj h
    simp [EachEntry]
  · next ms =>
    obtain ⟨f, rfl, hf⟩ := exists_map_of_mapM_eq_ok h
    have hentries : ∀ m ∈ ms, m.2 = .arr ((f m).2.map .obj) := by
      intro m hm
      have hread := hf m hm
      obtain ⟨package, value⟩ := m
      dsimp only at hread
      split at hread
      · next items =>
        split at hread
        · next entries hobjects =>
          rw [← Except.ok.inj hread]
          exact congrArg Json.arr (objects?_eq_some_iff.1 hobjects)
        · cases hread
      · cases hread
    constructor
    · intro hall s hs entry hentry
      obtain ⟨m, hm, rfl⟩ := List.mem_map.1 hs
      exact hall ms rfl m hm _ (hentries m hm) entry (List.mem_map_of_mem hentry)
    · rintro hall _ hms m hm items hitems entry hentry
      obtain rfl := Json.obj.inj hms
      rw [hentries m hm] at hitems
      obtain rfl := Json.arr.inj hitems
      obtain ⟨e, he, heq⟩ := List.mem_map.1 hentry
      obtain rfl := Json.obj.inj heq
      exact hall _ (List.mem_map_of_mem hm) e he
  · cases h

theorem reportsBut_eachEntry {β : Type} {read : String → Json.Members → String → Read β}
    {P : Json.Members → Prop}
    (h : ∀ package entry place, ReportsBut accident (P entry) (read package entry place)) :
    ReportsBut accident (EachEntry P value) (eachEntry value place read) := by
  refine reportsBut_packageEntries.after fun sections hsections => ?_
  refine .congr (.before (.mapM fun s _ => .indexed fun i e _ => h ..) fun _ _ => trivial) ?_
  exact (eachEntry_iff hsections).symm

theorem reportsBut_auditEntry :
    ReportsBut (· = .illShaped) (AuditShaped entry) (auditEntry package entry place) := by
  have hwho : ReportsBut (· = .illShaped)
      (field entry "who" = .null ∨ HasParts (field entry "who")) (who (field entry "who")) := by
    unfold who
    split
    · next h => exact .inl h
    · next s h => exact .inr (h ▸ trivial)
    · next h _ =>
      exact reportsBut_parts.map.congr (or_iff_right h).symm
  unfold auditEntry
  refine reportsBut_names.after fun criteria _ => ?_
  refine .congr (hwho.bind fun who _ => reportsBut_parts.before fun origins _ =>
    reportsBut_dependencyCriteria.after fun d _ => ?_) ⟨fun h => ⟨h.1, h.2⟩, fun h => ⟨h.1, h.2⟩⟩
  split
  · exact reportsBut_version.before fun _ _ => trivial
  · split
    · exact .fail
    · exact reportsBut_version.before fun _ _ => reportsBut_version.before fun _ _ => trivial
  · exact reportsBut_range.before fun _ _ => trivial
  · exact .fail

theorem reportsBut_grantEntry : ReportsBut (· = .illShaped) (Listed entry "aggregated-from")
    (grantEntry package entry place) := by
  have hrest : ReportsBut (· = .illShaped) (Listed entry "aggregated-from") (do
      let versions ← range ((entry.lookup "versions").getD (.str "*")) place
      let criteria ← names (field entry "criteria") s!"{place}.criteria"
      let aggregatedFrom ← parts ((field entry "aggregated-from").orElse (.arr []))
      pure (AuditRecord.grant
        { package, versions, criteria, publisher := (field entry "publisher").asText
          notes := field entry "notes", aggregatedFrom })) :=
    reportsBut_range.after fun _ _ => reportsBut_names.after fun _ _ =>
      reportsBut_parts.before fun _ _ => trivial
  unfold grantEntry
  dsimp only
  split
  · exact .fail
  · exact hrest

theorem reportsBut_auditRecords :
    ReportsBut (· = .illShaped) (AuditsShaped file) (auditRecords file place) := by
  unfold auditRecords
  refine .congr ((reportsBut_eachEntry fun _ _ _ => reportsBut_auditEntry).bind fun _ _ =>
    (reportsBut_eachEntry fun _ _ _ => reportsBut_grantEntry).before fun _ _ => trivial) ?_
  exact ⟨fun h => ⟨h.1, h.2⟩, fun h => ⟨h.1, h.2⟩⟩

theorem reportsBut_policy :
    ReportsBut (· = .illShaped) (PolicyShaped value) (policy package value) := by
  have hmembers : ∀ v : Json,
      ReportsBut (· = .illShaped) (∃ entry, v = .obj entry) (members v) := by
    intro v
    cases v with
    | obj entry => exact ⟨entry, rfl⟩
    | _ => exact .inr ⟨rfl, fun ⟨_, h⟩ => nomatch h⟩
  have hoptional : ∀ v place, ReportsBut (· = .illShaped) True (optionalNames v place) := by
    intro v place
    unfold optionalNames
    split
    · trivial
    · exact reportsBut_names.map
  unfold policy
  refine (hmembers _).before fun entry _ => ?_
  split
  · exact (hoptional ..).after fun _ _ => (hoptional ..).after fun _ _ =>
      reportsBut_dependencyCriteria.before fun _ _ => trivial
  · exact .fail

theorem reportsBut_importSource :
    ReportsBut (· = .illShaped) (ImportShaped value) (importSource name value) := by
  have hmapping : ∀ place i v, ReportsBut (· = .illShaped) True (criteriaMapping place i v) := by
    intro place i v
    unfold criteriaMapping
    split
    · split
      · exact reportsBut_names.before fun _ _ => trivial
      · exact .fail
    · exact .fail
  have hentry : ∀ entry : Json.Members, ReportsBut (· = .illShaped)
      (Listed entry "criteria-map" ∧ Listed entry "exclude") (do
        let mappings ← parts ((field entry "criteria-map").orElse (.arr []))
        let criteriaMap ← indexed (criteriaMapping s!"{configFile}: imports.{name}") mappings
        let exclude ← parts ((field entry "exclude").orElse (.arr []))
        pure { name, url := (field entry "url").asText
               exclude := NameSet.ofList (exclude.map Json.asText)
               criteriaMap : ImportSource }) := by
    intro entry
    refine reportsBut_parts.bind fun mappings _ => ?_
    exact .after (.all fun c _ => hmapping _ c.2 c.1) fun _ _ =>
      reportsBut_parts.before fun _ _ => trivial
  cases value with
  | obj entry =>
    have hself : ImportShaped (.obj entry) ↔
        Listed entry "criteria-map" ∧ Listed entry "exclude" :=
      ⟨fun h => h entry rfl, fun h e he => Json.obj.inj he ▸ h⟩
    unfold importSource
    dsimp only
    split
    · exact .fail
    · exact (hentry entry).congr hself.symm
  | str url =>
    have hlisted : ∀ n, n ≠ "url" → Listed [("url", .str url)] n := by
      intro n hn
      simp [Listed, field, NameMap.lookup_cons_eq, hn, Json.orElse, Json.isGiven, HasParts]
    unfold importSource
    dsimp only
    split
    · exact .fail
    · refine (hentry _).congr (iff_of_true ⟨hlisted _ (by decide), hlisted _ (by decide)⟩ ?_)
      intro e he
      cases he
  | _ => exact .fail

theorem reportsBut_exemptionEntry {default : String} :
    ReportsBut accident True (exemptionEntry default package entry place) := by
  unfold exemptionEntry
  split
  · exact .fail
  · exact reportsBut_version.after fun _ _ => reportsBut_names.after fun _ _ =>
      reportsBut_flag.after fun _ _ => reportsBut_flag.after fun _ _ =>
        reportsBut_dependencyCriteria.after fun _ _ => trivial

theorem reportsBut_sectionMembers : ReportsBut accident True (sectionMembers file name place) := by
  unfold sectionMembers
  split
  · trivial
  · exact .fail

theorem forall_members_iff {ms : Json.Members} {P : Json.Members → Prop}
    (h : sectionMembers file name place = .ok ms) :
    (∀ ms, (field file name).orElse (.obj []) = .obj ms → P ms) ↔ P ms := by
  unfold sectionMembers at h
  split at h
  · next ms' hobj =>
    obtain rfl := Except.ok.inj h
    rw [hobj]
    exact ⟨fun h => h _ rfl, fun h ms hms => Json.obj.inj hms ▸ h⟩
  · cases h

theorem reportsBut_config : ReportsBut (· = .illShaped) (ConfigShaped file) (config file) := by
  unfold config
  dsimp only
  refine .congr (reportsBut_sectionMembers.after fun policies hpolicies =>
    .bind (.congr (.mapM fun m _ => reportsBut_policy.before fun _ _ => trivial)
      (forall_members_iff (P := fun ms => ∀ m ∈ ms, PolicyShaped m.2) hpolicies).symm) fun _ _ =>
        .after (.congr (reportsBut_eachEntry fun _ _ _ => reportsBut_exemptionEntry)
          (iff_true_intro fun _ _ _ _ _ _ _ _ => trivial)) fun _ _ => ?_)
    ⟨fun h => ⟨h.1, h.2⟩, fun h => ⟨h.1, h.2⟩⟩
  refine reportsBut_sectionMembers.after fun imports himports => ?_
  refine .before (.congr (.mapM fun m _ => reportsBut_importSource) ?_) fun _ _ => trivial
  simp only [mem_sortBy]
  exact (forall_members_iff (P := fun ms => ∀ m ∈ ms, ImportShaped m.2) himports).symm

theorem reportsBut_criteriaEntries : ReportsBut accident True (criteriaEntries value place) := by
  unfold criteriaEntries
  split
  · trivial
  · refine .all fun m _ => ?_
    obtain ⟨name, value⟩ := m
    dsimp only
    split
    · exact reportsBut_names.before fun _ _ => trivial
    · exact .fail
  · exact .fail

theorem reportsBut_dependencyGraph : ReportsBut (· = .illShaped) (Listed file "dependencies")
    (dependencyGraph file place) := by
  have hpackage : ∀ i v, ReportsBut (· = .illShaped) True (packageEntry place i v) := by
    intro i v
    unfold packageEntry
    dsimp only
    split
    · split
      · exact reportsBut_version.before fun _ _ => trivial
      · exact .fail
    · exact .fail
  have hendpoint : ∀ {α : Type} (r : Except TextFault α) place,
      ReportsBut (· = .illShaped) True (endpoint place r) := by
    intro α r place
    unfold endpoint
    split
    · trivial
    · exact .fail
  have hedge : ∀ g i v, ReportsBut (· = .illShaped) True (addEdge place g i v) := by
    intro g i v
    unfold addEdge
    dsimp only
    split
    · split
      · refine (hendpoint ..).after fun _ _ => (hendpoint ..).after fun _ _ =>
          (hendpoint ..).after fun _ _ => ?_
        split
        · trivial
        · exact .fail
        · next f hne hadd =>
          obtain ⟨id, rfl⟩ := DependencyGraph.unknownPackage_of_addDependency hadd
          exact absurd rfl (hne id)
      · exact .fail
    · exact .fail
  have hedges : ∀ (l : List (Json × Nat)) g,
      ReportsBut (· = .illShaped) True (addEdges place g l) := by
    intro l
    induction l with
    | nil => exact fun g => trivial
    | cons e l ih => exact fun g => (hedge ..).after fun g _ => ih g
  unfold dependencyGraph
  split
  · exact .after (.all fun c _ => hpackage c.2 c.1) fun _ _ =>
      reportsBut_parts.before fun _ _ => hedges ..
  · exact .fail

/-- Faults of values that are no finite numbers where a count is meant. -/
def Uncounted (f : Fault) : Prop :=
  f = .illShaped ∨ (∃ s, f = .text (.notWholeNumber s)) ∨ f = .text .infinite

theorem reportsBut_wholeNumber : ReportsBut Uncounted (Counts value) (wholeNumber value) := by
  cases value with
  | bool => trivial
  | int => trivial
  | decimal m p =>
    cases hfinite : isFiniteDouble m.natAbs (Nat.pow 10 p) with
    | true =>
      rw [wholeNumber, if_pos hfinite]
      exact hfinite
    | false =>
      rw [wholeNumber, if_neg (Bool.eq_false_iff.1 hfinite)]
      exact .inr ⟨.inr (.inr rfl), Bool.eq_false_iff.1 hfinite⟩
  | str s =>
    rw [wholeNumber]
    split
    · next n hn => simp [ReportsBut, Counts, hn]
    · next hn => exact .inr ⟨.inr (.inl ⟨s, rfl⟩), by simp [Counts, hn]⟩
  | _ => exact .inr ⟨.inl rfl, id⟩

theorem reportsBut_diffEntry {delta : String} : ReportsBut Uncounted
    (∀ entry, value = .obj entry → Counted entry) (diffEntry package place delta value) := by
  have hstats : ∀ (entry : Json.Members) (start : Option Version) (target : Version),
      ReportsBut Uncounted (Counted entry) (do
          let insertions ← wholeNumber ((entry.lookup "insertions").getD (.int 0))
          let deletions ← wholeNumber ((entry.lookup "deletions").getD (.int 0))
          let filesChanged ← wholeNumber ((entry.lookup "files_changed").getD (.int 0))
          pure { package, start, target
                 stat := { insertions, deletions, filesChanged } : DiffEntry }) := by
    intro entry start target
    refine .congr (reportsBut_wholeNumber.bind fun _ _ => reportsBut_wholeNumber.bind fun _ _ =>
      reportsBut_wholeNumber.before fun _ _ => trivial) ?_
    simp [Counted]
  unfold diffEntry
  cases value with
  | obj entry =>
    refine .congr ?_ ⟨fun h e he => Json.obj.inj he ▸ h, fun h => h entry rfl⟩
    dsimp only
    split
    · exact reportsBut_version.after fun _ _ => reportsBut_version.after fun _ _ => hstats ..
    · exact reportsBut_version.after fun _ _ => hstats ..
  | _ =>
    dsimp only
    split
    · exact reportsBut_version.after fun _ _ => reportsBut_version.after fun _ _ => .fail
    · exact reportsBut_version.after fun _ _ => .fail

theorem reportsBut_diffs : ReportsBut Uncounted (DiffsShaped file) (diffs file) := by
  unfold diffs
  split
  · next packages hpackages =>
    refine .congr (.before (.mapM (P := fun p => ∀ deltas, p.2 = .obj deltas → ∀ d ∈ deltas,
      ∀ entry, d.2 = .obj entry → Counted entry) fun p hp => ?_) fun _ _ => trivial) ?_
    · clear hp
      obtain ⟨package, value⟩ := p
      dsimp only
      split
      · next deltas =>
        refine .congr (.mapM fun d _ => reportsBut_diffEntry) ?_
        exact ⟨fun h ms hms => Json.obj.inj hms ▸ h, fun h => h deltas rfl⟩
      · exact .fail
    · rw [DiffsShaped, hpackages]
      exact ⟨fun h ms hms => Json.obj.inj hms ▸ h, fun h => h packages rfl⟩
  · exact .fail

end Readers

end Document

/-! The loads. -/

open Document

/-- Whether a locked document is shaped as it has to be, if its import is configured. -/
def LockShaped (sources : List ImportSource) (m : String × Json) : Prop :=
  (∃ source ∈ sources, source.name = m.1) → ∀ document, m.2.orElse (.obj []) = .obj document →
    AuditsShaped document

/-- Whether the locked documents are shaped as they have to be for a configuration. -/
def Files.LocksShaped (files : Files) (root : Path) (file : Json.Members) : Prop :=
  ∀ config imported, Document.config file = .ok config →
    files.readData (root.child lockFile) = .ok imported →
      ∀ m ∈ imported, LockShaped config.imports m

/-- Whether the files of a store are shaped as it is taken for granted. -/
structure Files.StoreShaped (files : Files) (root : Path) : Prop where
  audits : ∀ file, files.readData (root.child auditsFile) = .ok file → AuditsShaped file
  config : ∀ file, files.readData (root.child configFile) = .ok file → ConfigShaped file
  locked : ∀ file, files.readData (root.child configFile) = .ok file →
    files.LocksShaped root file

section Loads

variable {files : Files} {root path : Path} {model : CriteriaModel} {sources : List ImportSource}
  {accident : Fault → Prop}

theorem forall_ok_iff {ε α : Type} {x : Except ε α} {a : α} {P : α → Prop} (h : x = .ok a) :
    (∀ b, x = .ok b → P b) ↔ P a := by
  subst h
  exact ⟨fun h => h a rfl, fun h b hb => Except.ok.inj hb ▸ h⟩

theorem reportsBut_liftCriteria {α : Type} {x : Except CriteriaFault α} :
    ReportsBut accident True (liftCriteria x) := by
  cases x with
  | ok => trivial
  | error => exact .inl rfl

theorem reportsBut_readData : ReportsBut accident True (files.readData path) := by
  unfold Files.readData
  split
  · trivial
  · exact .inl rfl
  · trivial
  · trivial
  · exact .fail

theorem reportsBut_readGraph : ReportsBut accident True (files.readGraph path) := by
  unfold Files.readGraph
  split
  · exact .inl rfl
  · exact .inl rfl
  · split
    · split
      · trivial
      · exact .fail
    · exact reportsBut_readData

theorem reportsBut_adopt {source : ImportSource} {document : Json.Members} :
    ReportsBut (· = .illShaped) (AuditsShaped document) (source.adopt document model).outcome := by
  have hmodel : ReportsBut (· = .illShaped) True (source.foreignModel document) := by
    unfold ImportSource.foreignModel
    refine reportsBut_criteriaEntries.after fun _ _ => ?_
    split
    · trivial
    · exact .inl rfl
  rw [ImportSource.adopt, Logged.outcome_bind]
  refine hmodel.after fun foreign _ => ?_
  rw [Logged.outcome_bind]
  have hrecords : ReportsBut (· = .illShaped) (AuditsShaped document)
      (source.foreignRecords document) := reportsBut_auditRecords.before fun _ _ => trivial
  exact hrecords.before fun _ _ => trivial

theorem reportsBut_lockedRecords {m : String × Json} : ReportsBut (· = .illShaped)
    (LockShaped sources m) (lockedRecords model sources m.1 m.2).outcome := by
  unfold lockedRecords
  split
  · next hfind =>
    rintro ⟨source, hsource, hname⟩
    exact absurd (decide_eq_true hname) (List.find?_eq_none.1 hfind source hsource)
  · next source hfind =>
    have hsource : ∃ s ∈ sources, s.name = m.1 :=
      ⟨source, List.mem_of_find?_eq_some hfind, by simpa using List.find?_some hfind⟩
    split
    · next document hvalue =>
      refine reportsBut_adopt.congr ?_
      rw [LockShaped, hvalue]
      exact ⟨fun h _ d hd => Json.obj.inj hd ▸ h, fun h => h hsource document rfl⟩
    · exact .fail

theorem reportsBut_allLockedRecords (imported : Json.Members) : ReportsBut (· = .illShaped)
    (∀ m ∈ imported, LockShaped sources m) (allLockedRecords model sources imported).outcome := by
  induction imported with
  | nil => exact fun _ hm => absurd hm List.not_mem_nil
  | cons m rest ih =>
    rw [allLockedRecords, Logged.outcome_bind]
    refine .congr (reportsBut_lockedRecords.bind fun _ _ => ?_) List.forall_mem_cons.symm
    rw [Logged.outcome_bind]
    exact ih.before fun _ _ => trivial

theorem reportsBut_loadModel {audits file : Json.Members} :
    ReportsBut (· = .illShaped) (ConfigShaped file) (loadModel audits file) := by
  have hchecks : ∀ {α : Type} (l : List α) (f : α → Read Unit),
      (∀ a, ReportsBut (· = .illShaped) True (f a)) →
        ReportsBut (· = .illShaped) True (l.forM f) := by
    intro α l f hf
    induction l with
    | nil => trivial
    | cons a l ih => exact (hf a).after fun _ _ => ih
  unfold loadModel
  exact reportsBut_config.before fun _ _ => reportsBut_criteriaEntries.after fun _ _ =>
    reportsBut_liftCriteria.after fun _ _ => reportsBut_liftCriteria.after fun _ _ =>
      (hchecks _ _ fun _ => hchecks _ _ fun _ => reportsBut_liftCriteria).before fun _ _ => trivial

theorem config_eq_of_loadModel {audits file : Json.Members} {fitted : StoreConfig × CriteriaModel}
    (h : loadModel audits file = .ok fitted) : Document.config file = .ok fitted.1 := by
  obtain ⟨config, hconfig, h⟩ := bind_eq_ok h
  obtain ⟨entries, _, h⟩ := bind_eq_ok h
  obtain ⟨model, _, h⟩ := bind_eq_ok h
  obtain ⟨_, _, h⟩ := bind_eq_ok h
  obtain ⟨_, _, h⟩ := bind_eq_ok h
  cases h
  exact hconfig

theorem reportsBut_loadStore :
    ReportsBut (· = .illShaped) (files.StoreShaped root) (files.loadStore root).outcome := by
  simp only [Files.loadStore, Logged.outcome_bind]
  refine reportsBut_readData.after fun audits haudits => ?_
  refine reportsBut_readData.after fun file hfile => ?_
  have hshaped : ConfigShaped file ∧ AuditsShaped audits ∧ files.LocksShaped root file ↔
      files.StoreShaped root := by
    constructor
    · rintro ⟨hconfig, haudit, hlocked⟩
      exact ⟨(forall_ok_iff haudits).2 haudit, (forall_ok_iff hfile).2 hconfig,
        (forall_ok_iff hfile).2 hlocked⟩
    · intro h
      exact ⟨h.config file hfile, h.audits audits haudits, h.locked file hfile⟩
  refine .congr (reportsBut_loadModel.bind fun fitted hfitted =>
    reportsBut_auditRecords.bind fun records _ =>
      reportsBut_readData.after fun imported himported => ?_) hshaped
  have hconfig : Document.config file = .ok fitted.1 := config_eq_of_loadModel hfitted
  refine .congr ((reportsBut_allLockedRecords _).before fun _ _ => trivial) ?_
  constructor
  · intro h config imported' hconfig' himported' m hm
    obtain rfl := Except.ok.inj (hconfig.symm.trans hconfig')
    obtain rfl := Except.ok.inj (himported.symm.trans himported')
    exact h m (mem_sortBy.2 hm)
  · exact fun h m hm => h _ _ hconfig himported m (mem_sortBy.1 hm)

theorem reportsBut_loadGraph : ReportsBut (· = .illShaped)
    (∀ file, files.readGraph path = .ok file → Listed file "dependencies")
    (files.loadGraph path) := by
  refine reportsBut_readGraph.after fun file hfile => reportsBut_dependencyGraph.congr ?_
  exact (forall_ok_iff (P := fun file => Listed file "dependencies") hfile).symm

theorem reportsBut_loadDiffs : ReportsBut Uncounted
    (∀ file, files.readData (root.child diffsFile) = .ok file → DiffsShaped file)
    (files.loadDiffs root) :=
  reportsBut_readData.after fun _ hfile => reportsBut_diffs.congr (forall_ok_iff hfile).symm

end Loads

/-- Loads report malformed data. What escapes them is only a value that is gone through, or counted
by, without a look at its shape; where there is no such value, every fault is reported. -/
theorem loads_report_malformed_data (files : Files) (root path : Path) :
    ReportsBut (· = .illShaped) (files.StoreShaped root) (files.loadStore root).outcome ∧
      ReportsBut (· = .illShaped)
        (∀ file, files.readGraph path = .ok file → Listed file "dependencies")
        (files.loadGraph path) ∧
      ReportsBut Uncounted
        (∀ file, files.readData (root.child diffsFile) = .ok file → DiffsShaped file)
        (files.loadDiffs root) :=
  ⟨reportsBut_loadStore, reportsBut_loadGraph, reportsBut_loadDiffs⟩

/-- Whether every fault of a reading is one that commands report. -/
def Reports {α : Type} (x : Read α) : Prop := ReportsBut (fun _ => False) True x

theorem not_reports_of_escapes {α : Type} {x : Read α}
    (h : (match x with
      | .ok _ => true
      | .error f => f.isReported) = false) : ¬Reports x := by
  cases x with
  | ok => cases h
  | error f =>
    rintro (hreported | ⟨⟨⟩, _⟩)
    dsimp only at h
    rw [hreported] at h
    cases h

/-- Faults escape every load: for a reviewer that is a number, for dependencies that are a number,
and for a count that is a word. -/
theorem exists_loads_that_escape :
    (¬∀ (files : Files) (root : Path), Reports (files.loadStore root).outcome) ∧
      (¬∀ (files : Files) (path : Path), Reports (files.loadGraph path)) ∧
        ¬∀ (files : Files) (root : Path), Reports (files.loadDiffs root) := by
  refine ⟨fun h => ?_, fun h => ?_, fun h => ?_⟩
  · exact not_reports_of_escapes (by decide +kernel)
      (h (Command.storeOf auditsFile (Command.auditedBase (.int 5))) (.ofText storeDirectory))
  · exact not_reports_of_escapes (by decide +kernel)
      (h (Command.storeOf "graph.json" [("dependencies", .int 5)])
        (.ofText "supply-chain/graph.json"))
  · exact not_reports_of_escapes (by decide +kernel)
      (h (Command.storeOf diffsFile [("diffs", .obj [("base", .obj [("1.0.0", .obj
        [("insertions", .str "many")])])])]) (.ofText storeDirectory))

end Vetting
