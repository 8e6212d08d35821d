import Vetting.Proofs.Implication
import Vetting.Proofs.SortedSections
import Vetting.Workspace.Load

/-! Criteria in another order. They make a model when they made one before, one that implies the
same, and records fit it and are adopted for it as before. -/

namespace Vetting

namespace CriteriaModel

variable {k : Regard} {m n : CriteriaModel} {custom : List Criterion} {c : String}

theorem find?_perm {l l' : List Criterion} (h : l'.Perm l) (hnodup : (l.map Criterion.name).Nodup) :
    l'.find? (fun e => decide (e.name = c)) = l.find? fun e => decide (e.name = c) := by
  have hnodup' : (l'.map Criterion.name).Nodup := (h.map Criterion.name).nodup_iff.2 hnodup
  ext e
  rw [find?_key_eq_some_iff hnodup', find?_key_eq_some_iff hnodup, h.mem_iff]

/-- Whether a model has the criteria of another one, the same for all that is regarded. -/
structure SameAs (k : Regard) (n m : CriteriaModel) : Prop where
  names_eq : n.names = m.names
  closure_eq : ∀ c, n.closure c = m.closure c
  find?_eq : ∀ c, (n.find? c).map k.criterion = (m.find? c).map k.criterion

section Reordered

variable (h : (custom.map k.criterion).Perm (m.custom.map k.criterion))

include h

theorem reordered : ((builtinCriteria ++ custom).map k.criterion).Perm (m.criteria.map k.criterion) := by
  rw [List.map_append, criteria, List.map_append]
  exact h.append_left _

theorem reordered_names : ((builtinCriteria ++ custom).map Criterion.name).Perm
    (m.criteria.map Criterion.name) := by
  have hnames := (reordered h).map Criterion.name
  rwa [List.map_map, List.map_map] at hnames

theorem namesOf_reordered : namesOf (builtinCriteria ++ custom) = m.names := by
  ext c
  rw [namesOf, NameSet.mem_ofList, (reordered_names h).mem_iff, names, namesOf, NameSet.mem_ofList]

theorem find?_reordered : ((builtinCriteria ++ custom).find? fun e => decide (e.name = c)).map
    k.criterion = (m.find? c).map k.criterion := by
  have hfind : ∀ l : List Criterion, (l.find? fun e => decide (e.name = c)).map k.criterion =
      (l.map k.criterion).find? fun e => decide (e.name = c) := by
    intro l
    rw [List.find?_map]
    rfl
  rw [hfind, find?, hfind]
  refine find?_perm (reordered h) ?_
  rw [List.map_map]
  exact m.nodup_names

theorem impliedBy_reordered : impliedBy (builtinCriteria ++ custom) = impliedBy m.criteria := by
  funext c
  have hsame := find?_reordered h (c := c)
  rw [find?] at hsame
  unfold impliedBy
  split
  · next e he =>
    rw [he] at hsame
    split
    · next f hf =>
      rw [hf] at hsame
      have himplies := congrArg Criterion.implies (Option.some.inj hsame)
      exact congrArg NameSet.toList himplies
    · next hnone =>
      rw [hnone] at hsame
      cases hsame
  · next hnone =>
    rw [hnone] at hsame
    split
    · next f hf =>
      rw [hf] at hsame
      cases hsame
    · rfl

theorem fault?_reordered : fault? custom = none := by
  obtain ⟨hnames, himplications, hcycles⟩ := m.faults_eq_none
  have hcustom : (custom.map Criterion.name).Perm (m.custom.map Criterion.name) := by
    have hnames := h.map Criterion.name
    rwa [List.map_map, List.map_map] at hnames
  have hname : nameFault? [] custom = none := by
    obtain ⟨hnodup, hfresh⟩ := nodup_of_nameFault? hnames
    refine nameFault?_eq_none (hcustom.nodup_iff.2 hnodup) fun e he => ⟨?_, List.not_mem_nil⟩
    obtain ⟨f, hf, hname⟩ := List.mem_map.1 (hcustom.mem_iff.1 (List.mem_map_of_mem he))
    rw [← hname]
    exact (hfresh f hf).1
  have himplication : implicationFault? (builtinCriteria ++ custom) = none := by
    rw [implicationFault?, List.findSome?_eq_none_iff] at himplications ⊢
    intro e he
    obtain ⟨f, hf, hfe⟩ := List.mem_map.1 ((reordered h).mem_iff.1 (List.mem_map_of_mem he))
    have hname := congrArg Criterion.name hfe
    have himplies := congrArg Criterion.implies hfe
    have hnone := himplications f hf
    rw [namesOf_reordered h]
    simp only [Regard.criterion] at hname himplies
    rwa [impliedFault?, himplies, hname] at hnone
  have hcycle : cycleFault? (builtinCriteria ++ custom) = none := by
    rw [cycleFault?, namesOf_reordered h, impliedBy_reordered h]
    exact hcycles
  rw [fault?, hname, himplication, hcycle]
  rfl

theorem exists_ofList_reordered : ∃ n, ofList custom = .ok n ∧ n.SameAs k m := by
  let n : CriteriaModel := ⟨custom, fault?_reordered h⟩
  have himplies : ∀ a b, n.Implies a b ↔ m.Implies a b := by
    have hmem : ∀ p : String × NameSet, p ∈ n.criteria.map (fun e => (e.name, e.implies)) ↔
        p ∈ m.criteria.map fun e => (e.name, e.implies) := by
      intro p
      have hpairs := (reordered h).map fun e => (e.name, e.implies)
      rw [List.map_map, List.map_map] at hpairs
      exact hpairs.mem_iff
    have hpair : ∀ (m : CriteriaModel) a b, m.Implies a b ↔
        ∃ s, (a, s) ∈ m.criteria.map (fun e => (e.name, e.implies)) ∧ b ∈ s := by
      intro m a b
      constructor
      · rintro ⟨e, he, rfl, hb⟩
        exact ⟨e.implies, List.mem_map.2 ⟨e, he, rfl⟩, hb⟩
      · rintro ⟨s, hs, hb⟩
        obtain ⟨e, he, hes⟩ := List.mem_map.1 hs
        obtain ⟨rfl, rfl⟩ := Prod.mk.inj hes
        exact ⟨e, he, rfl, hb⟩
    intro a b
    rw [hpair, hpair]
    exact exists_congr fun s => and_congr_left fun _ => hmem (a, s)
  refine ⟨n, ofList_eq_ok_iff.2 rfl, namesOf_reordered h, fun c => ?_, fun c => find?_reordered h⟩
  ext b
  have hrelation : n.Implies = m.Implies := funext fun a => funext fun b => propext (himplies a b)
  rw [mem_closure_iff, mem_closure_iff, hrelation]

end Reordered

theorem SameAs.mem_iff (h : n.SameAs k m) : c ∈ n ↔ c ∈ m := by
  show c ∈ n.names ↔ c ∈ m.names
  rw [h.names_eq]

theorem SameAs.decide_mem (h : n.SameAs k m) :
    (fun c => decide (c ∈ n)) = fun c => decide (c ∈ m) :=
  funext fun _ => decide_eq_decide.2 h.mem_iff

theorem SameAs.check_eq_ok (h : n.SameAs k m) {context : String}
    (hcheck : m.check c context = .ok ()) : n.check c context = .ok () :=
  n.check_eq_ok_iff.2 (h.mem_iff.2 (m.check_eq_ok_iff.1 hcheck))

theorem SameAs.fault?_eq (h : n.SameAs k m) : AuditRecord.fault? n = AuditRecord.fault? m := by
  have hunknown : n.unknownIn = m.unknownIn := by
    funext s
    rw [unknownIn, unknownIn]
    exact congrArg s.filter (funext fun c => decide_eq_decide.2 (not_congr h.mem_iff))
  funext filed r
  simp only [AuditRecord.fault?, AuditRecord.dependencyFault?, hunknown]

theorem SameAs.adopt_eq (h : n.SameAs k m) (source : ImportSource) (document : Json.Members) :
    source.adopt document n = source.adopt document m := by
  have hadopt : ∀ foreign, source.adopt? foreign n = source.adopt? foreign m := by
    intro foreign
    have hmap : source.mapRecord foreign n = source.mapRecord foreign m := by
      funext r
      simp only [ImportSource.mapRecord, h.decide_mem]
    have hdependencies : source.mapDependencies foreign n = source.mapDependencies foreign m := by
      funext d
      simp only [ImportSource.mapDependencies, h.decide_mem]
    have hrelabel : source.relabel foreign n = source.relabel foreign m := by
      funext criteria r
      cases r with
      | full => simp only [ImportSource.relabel, hdependencies]
      | delta => simp only [ImportSource.relabel, hdependencies]
      | exemption => simp only [ImportSource.relabel, hdependencies]
      | grant => rfl
      | violation => rfl
    funext r
    simp only [ImportSource.adopt?, hmap, hrelabel]
  simp only [ImportSource.adopt, hadopt]

theorem SameAs.allLockedRecords_eq (h : n.SameAs k m) (sources : List ImportSource)
    (documents : Json.Members) :
    allLockedRecords n sources documents = allLockedRecords m sources documents := by
  have hlocked : lockedRecords n sources = lockedRecords m sources := by
    funext name value
    simp only [lockedRecords, h.adopt_eq]
  induction documents with
  | nil => rfl
  | cons d documents ih => simp only [allLockedRecords, hlocked, ih]

end CriteriaModel

namespace Document

open CriteriaModel

variable {k : Regard} {m : CriteriaModel} {value : Json} {place : String} {ms : Json.Members}
  {entries : List CriteriaEntry} {audits audits' file : Json.Members} {loaded : StoreConfig}

instance : Inhabited CriteriaEntry := ⟨⟨"", .null, .null, ∅⟩⟩

/-- The description of a criterion by its entry. -/
def descriptionOf (entry : Json.Members) : Json := (entry.lookup "description").getD (.str "")

/-- Whether an entry under a name makes a criterion. -/
def MakesCriterion (e : String × Json) (made : CriteriaEntry) : Prop :=
  ∃ entry implies, e.2.orElse (.obj []) = .obj entry ∧
    (∃ place, names (field entry "implies") place = .ok implies) ∧
      made = ⟨e.1, descriptionOf entry, field entry "description-url", implies⟩

/-- Whether what is regarded of the criteria stays the same when their section is sorted. -/
def KeepsCriteria (k : Regard) (ms : Json.Members) : Prop :=
  ∀ e ∈ ms, ∀ entry, e.2.orElse (.obj []) = .obj entry →
    k.text ((descriptionOf entry).sortMembers.orElse (.str "")).asText =
      k.text ((descriptionOf entry).orElse (.str "")).asText

theorem exists_section_of_criteriaEntries (h : criteriaEntries value place = .ok entries) :
    ∃ ms, IsSection value ms ∧ ∃ g, entries = ms.map g ∧ ∀ e ∈ ms, MakesCriterion e (g e) := by
  cases value with
  | null =>
    cases h
    exact ⟨[], .inr ⟨rfl, rfl⟩, fun _ => default, rfl, fun _ he => absurd he List.not_mem_nil⟩
  | obj ms =>
    obtain ⟨g, rfl, hg⟩ := exists_map_of_mapM_eq_ok h
    refine ⟨ms, .inl rfl, g, rfl, fun e he => ?_⟩
    have hmade := hg e he
    dsimp only at hmade
    split at hmade
    · next entry hentry =>
      obtain ⟨implies, himplies, hmade⟩ := bind_eq_ok hmade
      exact ⟨entry, implies, hentry, ⟨_, himplies⟩, (Except.ok.inj hmade).symm⟩
    · cases hmade
  | bool => cases h
  | int => cases h
  | decimal => cases h
  | str => cases h
  | arr => cases h

theorem criteriaEntries_sorted {g : String × Json → CriteriaEntry} (hsection : IsSection value ms)
    (hmakes : ∀ e ∈ ms, MakesCriterion (Json.sortMember e) (g e)) :
    criteriaEntries value.sortMembers place =
      .ok ((sortBy (fun a b => decide (a.1 < b.1)) ms).map g) := by
  rcases hsection with rfl | ⟨rfl, rfl⟩
  · rw [Json.sortMembers_obj, Json.sortEach_eq]
    refine mapM_eq_ok_iff_forall₂.2 ?_
    rw [List.forall₂_map_left_iff, List.forall₂_map_right_iff, List.forall₂_same]
    intro e he
    obtain ⟨entry, implies, hentry, ⟨_, himplies⟩, hmade⟩ := hmakes e (mem_sortBy.1 he)
    have hplace : ∀ place, names (field entry "implies") place = .ok implies :=
      fun _ => names_place himplies
    simp only [hentry, hplace, hmade]
    rfl
  · rfl

theorem descriptionOf_sortEach {entry : Json.Members} :
    descriptionOf (Json.sortEach entry) = (descriptionOf entry).sortMembers := by
  rw [descriptionOf, Json.lookup_sortEach, descriptionOf]
  cases entry.lookup "description" with
  | none => simp [Json.sortMembers]
  | some v => rfl

theorem MakesCriterion.exists_sorted {e : String × Json} {made : CriteriaEntry}
    (h : MakesCriterion e made)
    (hkeeps : ∀ entry, e.2.orElse (.obj []) = .obj entry →
      k.text ((descriptionOf entry).sortMembers.orElse (.str "")).asText =
        k.text ((descriptionOf entry).orElse (.str "")).asText) :
    ∃ made', MakesCriterion (Json.sortMember e) made' ∧
      k.criterion made'.criterion = k.criterion made.criterion := by
  obtain ⟨entry, implies, hentry, ⟨place, himplies⟩, rfl⟩ := h
  refine ⟨⟨e.1, (descriptionOf entry).sortMembers, (field entry "description-url").sortMembers,
    implies⟩, ⟨Json.sortEach entry, implies, ?_, ⟨place, ?_⟩, ?_⟩, ?_⟩
  · have hnil : (Json.obj []).sortMembers = .obj [] := by simp [Json.sortMembers, Json.sortEach]
    rw [Json.sortMember, Json.orElse_sortMembers hnil, hentry, Json.sortMembers_obj]
  · rw [field_sortEach]
    exact names_sortMembers himplies
  · rw [descriptionOf_sortEach, field_sortEach]
    rfl
  · simp only [Regard.criterion, CriteriaEntry.criterion, hkeeps entry hentry, k.notes_sortMembers]

/-- A sorted section of criteria makes the same criteria for all that is regarded. -/
theorem exists_criteriaEntries_sorted (h : criteriaEntries value place = .ok entries)
    (hkeeps : ∀ ms, IsSection value ms → KeepsCriteria k ms) :
    ∃ sorted, (∀ place, criteriaEntries value.sortMembers place = .ok sorted) ∧
      ((sorted.map CriteriaEntry.criterion).map k.criterion).Perm
        ((entries.map CriteriaEntry.criterion).map k.criterion) := by
  obtain ⟨ms, hsection, g, rfl, hmakes⟩ := exists_section_of_criteriaEntries h
  have hsorted : ∀ e ∈ ms, ∃ made, MakesCriterion (Json.sortMember e) made ∧
      k.criterion made.criterion = k.criterion (g e).criterion := fun e he =>
    (hmakes e he).exists_sorted (hkeeps ms hsection e he)
  choose! g' hmakes' hsame using hsorted
  refine ⟨_, fun _ => criteriaEntries_sorted hsection hmakes', ?_⟩
  simp only [List.map_map]
  have hcongr : (sortBy (fun a b => decide (a.1 < b.1)) ms).map
        (k.criterion ∘ CriteriaEntry.criterion ∘ g') =
      (sortBy (fun a b => decide (a.1 < b.1)) ms).map
        (k.criterion ∘ CriteriaEntry.criterion ∘ g) :=
    List.map_congr_left fun e he => hsame e (mem_sortBy.1 he)
  rw [hcongr]
  exact (sortBy_perm _ ms).map _

theorem liftCriteria_eq_ok_iff {α : Type} {x : Except CriteriaFault α} {a : α} :
    liftCriteria x = .ok a ↔ x = .ok a := by
  cases x with
  | error f =>
    constructor
    · intro h
      cases h
    · intro h
      cases h
  | ok b =>
    have hlift : liftCriteria (.ok b) = .ok b := rfl
    rw [hlift, Except.ok.injEq, Except.ok.injEq]

/-- The configuration and the criteria that fit keep fitting when the audits file is sorted. -/
theorem exists_loadModel_sorted {config : StoreConfig}
    (h : loadModel audits file = .ok (config, m))
    (hsorted : field audits' "criteria" = (field audits "criteria").sortMembers)
    (hkeeps : ∀ ms, IsSection (field audits "criteria") ms → KeepsCriteria k ms) :
    ∃ n, loadModel audits' file = .ok (config, n) ∧ n.SameAs k m := by
  obtain ⟨config', hconfig, h⟩ := bind_eq_ok h
  obtain ⟨entries, hentries, h⟩ := bind_eq_ok h
  obtain ⟨m', hm, h⟩ := bind_eq_ok h
  obtain ⟨_, hdefault, h⟩ := bind_eq_ok h
  obtain ⟨_, himports, h⟩ := bind_eq_ok h
  obtain ⟨rfl, rfl⟩ := Prod.mk.inj (Except.ok.inj h)
  obtain ⟨sorted, hentries', hperm⟩ := exists_criteriaEntries_sorted hentries hkeeps
  have hcustom : m'.custom = entries.map CriteriaEntry.criterion :=
    ofList_eq_ok_iff.1 (liftCriteria_eq_ok_iff.1 hm)
  rw [← hcustom] at hperm
  obtain ⟨n, hn, hsame⟩ := exists_ofList_reordered hperm
  have hdefault' : liftCriteria (n.check config'.defaultCriteria "default-criteria") = .ok () :=
    liftCriteria_eq_ok_iff.2 (hsame.check_eq_ok (liftCriteria_eq_ok_iff.1 hdefault))
  have himports' : (config'.imports.forM fun source => source.criteriaMap.forM fun mapping =>
      liftCriteria (n.check mapping.ours s!"criteria-map of import {source.name}")) = .ok () := by
    rw [forM_eq_ok_iff] at himports ⊢
    intro source hsource
    have hmappings := himports source hsource
    rw [forM_eq_ok_iff] at hmappings ⊢
    intro mapping hmapping
    exact liftCriteria_eq_ok_iff.2
      (hsame.check_eq_ok (liftCriteria_eq_ok_iff.1 (hmappings mapping hmapping)))
  refine ⟨n, ?_, hsame⟩
  rw [loadModel, hconfig, ok_bind, hsorted, hentries', ok_bind, modelOf,
    liftCriteria_eq_ok_iff.2 hn, ok_bind, hdefault', ok_bind, himports']
  rfl

end Document

end Vetting
