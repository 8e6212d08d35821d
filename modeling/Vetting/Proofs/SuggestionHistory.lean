import Vetting.Proofs.BatchSuggestion

/-! Suggestions by a session with a past. They are what a new session suggests, unless a version
that no record names came up before: a change from there may then be proposed. -/

namespace Vetting

section Cheapest

variable {cost : Version → Int} {vs : List Version} {v : Version}

theorem cheapest?_eq_none_iff : cheapest? cost vs = none ↔ vs = [] := by
  cases vs with
  | nil => exact iff_of_true rfl rfl
  | cons u vs =>
    refine iff_of_false ?_ (List.cons_ne_nil u vs)
    unfold cheapest?
    split
    · split
      · nofun
      · nofun
    · nofun

/-- What is chosen is the first one of those that cost least. -/
theorem exists_split_of_cheapest? (h : cheapest? cost vs = some v) : ∃ before after,
    vs = before ++ v :: after ∧ (∀ u ∈ before, cost v < cost u) ∧ ∀ u ∈ after, cost v ≤ cost u := by
  induction vs generalizing v with
  | nil => cases h
  | cons u vs ih =>
    unfold cheapest? at h
    split at h
    · next w hw =>
      obtain ⟨before, after, rfl, hbefore, hafter⟩ := ih hw
      split at h
      · next hlt =>
        obtain rfl := Option.some.inj h
        exact ⟨u :: before, after, rfl, List.forall_mem_cons.2 ⟨hlt, hbefore⟩, hafter⟩
      · next hle =>
        obtain rfl := Option.some.inj h
        have hwu : cost u ≤ cost w := Int.not_lt.1 hle
        refine ⟨[], _, rfl, fun _ hx => absurd hx List.not_mem_nil, fun x hx => ?_⟩
        rcases List.mem_append.1 hx with hx | hx
        · exact Int.le_trans hwu (Int.le_of_lt (hbefore x hx))
        · rcases List.mem_cons.1 hx with rfl | hx
          · exact hwu
          · exact Int.le_trans hwu (hafter x hx)
    · next hnone =>
      obtain rfl := Option.some.inj h
      obtain rfl := cheapest?_eq_none_iff.1 hnone
      exact ⟨[], [], rfl, fun _ hx => absurd hx List.not_mem_nil,
        fun _ hx => absurd hx List.not_mem_nil⟩

/-- Of versions in descending order, one that is passed over costs more, or as much and is not
higher. -/
theorem cheapest?_preferred {w : Version} (h : cheapest? cost vs = some v) (hw : w ∈ vs)
    (hsorted : vs.Pairwise fun a b => a.toRelease.precedes b.toRelease = false) (hne : w ≠ v) :
    cost v < cost w ∨ cost v = cost w ∧ v.toRelease.precedes w.toRelease = false := by
  obtain ⟨before, after, rfl, hbefore, hafter⟩ := exists_split_of_cheapest? h
  rcases List.mem_append.1 hw with hw | hw
  · exact .inl (hbefore w hw)
  · have hw : w ∈ after := (List.mem_cons.1 hw).resolve_left hne
    have hlater := (List.pairwise_cons.1 (List.pairwise_append.1 hsorted).2.1).1 w hw
    exact (Int.lt_or_eq_of_le (hafter w hw)).imp_right fun heq => ⟨heq, hlater⟩

end Cheapest

namespace AuditGraph

variable {model : CriteriaModel} {store : AuditStore model} {package : String}

/-- The releases that records of a package name. -/
def named (store : AuditStore model) (package : String) : List Release :=
  ((store.recordsFor package).flatMap AuditRecord.versions).map Version.toRelease

theorem mem_named {v : Version} {r : AuditRecord} (hr : r ∈ store.recordsFor package)
    (hv : v ∈ r.versions) : v.toRelease ∈ named store package :=
  List.mem_map_of_mem (List.mem_flatMap.2 ⟨r, hr, hv⟩)

/-- What records name is known in the same words, whatever else is. -/
theorem mem_known_of_named [SetOrder] {v : Version} (hv : v.toRelease ∈ named store package)
    {more : List Version} : v ∈ known store package more ↔
      v ∈ distinctOn Version.toRelease ((store.recordsFor package).flatMap AuditRecord.versions) := by
  have hself : ∀ v ∈ (store.recordsFor package).flatMap AuditRecord.versions,
      decide (v.toRelease ∈ named store package) = true :=
    fun v hv => decide_eq_true (List.mem_map_of_mem hv)
  have hkept : ((distinctOn Version.toRelease ((store.recordsFor package).flatMap
      AuditRecord.versions ++ more)).filter fun v => decide (v.toRelease ∈ named store package)) =
        distinctOn Version.toRelease
          ((store.recordsFor package).flatMap AuditRecord.versions) := by
    rw [← distinctOn_filter Version.toRelease (fun r => decide (r ∈ named store package)),
      List.filter_append, List.filter_eq_self.2 hself]
    apply distinctOn_append_of_forall_mem
    intro b hb
    exact of_decide_eq_true (List.mem_filter.1 hb).2
  rw [known, (Version.sortedSet_perm _ _).mem_iff, ← hkept, List.mem_filter, decide_eq_true_eq]
  exact (and_iff_left hv).symm

end AuditGraph

namespace AuditStore

variable {model : CriteriaModel} {store : AuditStore model} {mode : ExemptionMode} {id : PackageId}
  {c : String}

/-- The versions of a list that a change to a version may start from, the highest first. -/
def startsAmong [SetOrder] (store : AuditStore model) (mode : ExemptionMode) (id : PackageId)
    (c : String) (versions : List Version) : List Version :=
  sortBy (fun a b => b.toRelease.precedes a.toRelease) <| versions.filter fun v =>
    (store.resolve mode ⟨id.package, v⟩ c).isSatisfied &&
      decide (v.toRelease ≠ id.version.toRelease)

theorem mem_startsAmong [SetOrder] {versions : List Version} {v : Version} :
    v ∈ store.startsAmong mode id c versions ↔ v ∈ versions ∧
      (store.resolve mode ⟨id.package, v⟩ c).isSatisfied = true ∧
        v.toRelease ≠ id.version.toRelease := by
  rw [startsAmong, mem_sortBy, List.mem_filter, Bool.and_eq_true, decide_eq_true_eq]

theorem pairwise_startsAmong [SetOrder] (versions : List Version) :
    (store.startsAmong mode id c versions).Pairwise fun a b =>
      a.toRelease.precedes b.toRelease = false :=
  pairwise_sortBy (fun a b => Release.precedes_asymm b.toRelease a.toRelease)
    (fun a b c hba hcb => Release.not_precedes_trans c.toRelease b.toRelease a.toRelease hcb hba) _

/-- Whether a change to a version may start from another version of the package: an accepted record
names that version, and it satisfies the criterion. -/
structure CanStart [SetOrder] (store : AuditStore model) (mode : ExemptionMode) (id : PackageId)
    (c : String) (v : Version) : Prop where
  named : ∃ r ∈ store.accepted, r.package = id.package ∧ v ∈ r.versions
  moves : v.toRelease ≠ id.version.toRelease
  based : c ∈ store.satisfied mode ⟨id.package, v⟩

theorem canStart_of_mem_startsAmong [SetOrder] {more : List Version} {v : Version} (hc : c ∈ model)
    (hv : v ∈ store.startsAmong mode id c (AuditGraph.known store id.package more))
    (hnamed : v.toRelease ∈ AuditGraph.named store id.package) : store.CanStart mode id c v := by
  obtain ⟨hknown, hresolved, hmoves⟩ := mem_startsAmong.1 hv
  have hmet := mem_of_mem_distinctOn ((AuditGraph.mem_known_of_named hnamed).1 hknown)
  obtain ⟨r, hr, hversion⟩ := List.mem_flatMap.1 hmet
  obtain ⟨haccepted, hpackage⟩ := mem_recordsFor.1 hr
  exact ⟨⟨r, haccepted, hpackage, hversion⟩, hmoves,
    (store.mem_satisfied_iff_isSatisfied_resolve mode).2 ⟨hc, hresolved⟩⟩

theorem CanStart.mem_named [SetOrder] {v : Version} (h : store.CanStart mode id c v) :
    v.toRelease ∈ AuditGraph.named store id.package := by
  obtain ⟨r, haccepted, hpackage, hversion⟩ := h.named
  exact AuditGraph.mem_named (mem_recordsFor.2 ⟨haccepted, hpackage⟩) hversion

/-- The suggestion of an audit, unless it turns out not to close the gap. -/
def offer [SetOrder] (store : AuditStore model) (mode : ExemptionMode) (c : String)
    (audit : SuggestedAudit) : Suggestion :=
  if store.closes mode audit c then .proposed audit else .noCandidate (.wouldNotSatisfy audit)

end AuditStore

namespace Session

variable {model : CriteriaModel} {store : AuditStore model} {mode : ExemptionMode}
  {s : Session store} {calls : List Call} {cost : CostMetric} {id : PackageId} {c : String}
  {required : NameSet} {v : Version}

theorem Recalls.startsFor_eq [SetOrder] (h : Recalls mode calls s) : s.startsFor id c =
    store.startsAmong mode id c (AuditGraph.known store id.package (s.askedOf id.package)) := by
  rw [startsFor, frontier, List.filter_filter, AuditStore.startsAmong]
  congr 1
  apply List.filter_congr
  intro v hv
  have hknown : v.toRelease ∈ (AuditGraph.known store id.package
      (s.askedOf id.package)).map Version.toRelease := List.mem_map_of_mem hv
  have hsame : (store.resolveIn s.mode (s.graph id.package) v.toRelease c).isSatisfied =
      (store.resolve mode ⟨id.package, v⟩ c).isSatisfied := by
    rw [h.mode_eq]
    exact AuditStore.isSatisfied_resolveIn_build ⟨id.package, v⟩ hknown
  rw [hsame, Bool.and_comm]

/-- Of the starts that a session finds, those that records name are found by every session. -/
theorem Recalls.mem_startsFor_named [SetOrder] (h : Recalls mode calls s)
    (hv : v.toRelease ∈ AuditGraph.named store id.package) : v ∈ s.startsFor id c ↔
      v ∈ store.startsAmong mode id c (AuditGraph.known store id.package []) := by
  rw [h.startsFor_eq, AuditStore.mem_startsAmong, AuditStore.mem_startsAmong,
    AuditGraph.mem_known_of_named hv, AuditGraph.mem_known_of_named hv]

/-- What is suggested, but for the audit, depends on nothing that a session was asked. -/
theorem Recalls.suggest_eq [SetOrder] (h : Recalls mode calls s) :
    (s.suggest cost id c required).1 = match store.blocking id.package id.version.toRelease c with
    | w :: ws => .blocked (w :: ws)
    | [] =>
      if (store.resolve mode id c).isSatisfied then .satisfied
      else if store.optedOut id c then .noCandidate .optedOut
      else store.offer mode c
        ((s.grow id.package id.version).candidate cost id c required).1 := by
  have hsatisfied : (s.resolve id c).1.isSatisfied = (store.resolve mode id c).isSatisfied :=
    h.isSatisfied_resolve
  rw [← hsatisfied]
  cases hblocking : store.blocking id.package id.version.toRelease c with
  | cons w ws =>
    have hresolve : s.resolve id c = (.vetoed (w :: ws), s) := by
      simp only [Session.resolve, hblocking, List.isEmpty_cons, Bool.false_eq_true, if_false]
      simp only [AuditStore.resolveIn, graph, AuditGraph.build, hblocking]
    rw [Session.suggest, hresolve]
  | nil =>
    have hgrown : (s.resolve id c).2 = s.grow id.package id.version := by
      simp only [Session.resolve, hblocking, List.isEmpty_nil, if_true]
    have hmode : ((s.grow id.package id.version).candidate cost id c required).2.mode = mode := by
      have hself : Recalls mode (calls ++ [.satisfied id.package (some id.version)]) s := h.later _
      have hid : id.version ∈ (calls ++ [Call.satisfied id.package (some id.version)]).flatMap
          (Call.versionsOf id.package) := mem_versionsOf_last (by simp [Call.versionsOf])
      exact ((hself.grow hid).candidate hid).mode_eq
    have hundenied : (s.resolve id c).1.isVetoed = false := by
      rw [Bool.eq_false_iff]
      exact fun hveto => AuditStore.blocking_ne_nil_of_isVetoed hveto hblocking
    rw [Session.suggest]
    generalize s.resolve id c = asked at hgrown hundenied
    obtain ⟨answer, t⟩ := asked
    obtain rfl : t = s.grow id.package id.version := hgrown
    cases answer with
    | vetoed vs => cases hundenied
    | satisfied path => rfl
    | unreached =>
      have hgap : ¬Resolution.unreached.isSatisfied = true := Bool.false_ne_true
      dsimp only
      rw [if_neg hgap]
      split
      · rfl
      · simp only [hmode, AuditStore.offer]
        split <;> rfl

/-- The change to a version from another one, for a criterion alone. -/
def changeFrom (cost : CostMetric) (id : PackageId) (c : String) (start : Version) :
    SuggestedAudit :=
  { package := id.package, start := some start, target := id.version
    criteria := .single c, cost := cost id.package (some start) id.version }

/-- The review of a whole version, for a criterion and all else that is required and wanting. -/
def wholeReview [SetOrder] (store : AuditStore model) (mode : ExemptionMode) (cost : CostMetric)
    (id : PackageId) (c : String) (required : NameSet) : SuggestedAudit :=
  { package := id.package, start := none, target := id.version
    criteria := model.minimize ((required.insert c \ store.satisfied mode id).filter fun d =>
      (store.blocking id.package id.version.toRelease d).isEmpty)
    cost := cost id.package none id.version }

theorem Recalls.candidate_eq [SetOrder] (h : Recalls mode calls s) :
    (s.candidate cost id c required).1 =
    match cheapest? (fun v => cost id.package (some v) id.version) (s.startsFor id c) with
    | some v => changeFrom cost id c v
    | none => wholeReview store mode cost id c required := by
  rw [Session.candidate]
  cases cheapest? (fun v => cost id.package (some v) id.version) (s.startsFor id c) with
  | some v => rfl
  | none => rw [wholeReview, ← h.satisfied_eq]

/-- A version that a change may start from and that is known only because it was asked about. -/
structure BroughtUp [SetOrder] (store : AuditStore model) (mode : ExemptionMode) (calls : List Call)
    (id : PackageId) (c : String) (v : Version) : Prop where
  asked : v ∈ calls.flatMap (Call.versionsOf id.package)
  unnamed : ∀ r ∈ store.recordsFor id.package, v.toRelease ∉ r.versions.map Version.toRelease
  moves : v.toRelease ≠ id.version.toRelease
  based : c ∈ store.satisfied mode ⟨id.package, v⟩

/-- Growing leaves a session that recalls the version as one more that it was asked about. -/
theorem Recalls.grow_later [SetOrder] (h : Recalls mode calls s) :
    Recalls mode (calls ++ [.satisfied id.package (some id.version)])
      (s.grow id.package id.version) :=
  (h.later _).grow (mem_versionsOf_last (by simp [Call.versionsOf]))

/-- A new session knows of no version to start from but those that records name. -/
theorem named_of_mem_startsFor_start [SetOrder]
    (hv : v ∈ ((start store mode).grow id.package id.version).startsFor id c) :
    v.toRelease ∈ AuditGraph.named store id.package := by
  have hrecalls : Recalls mode [.satisfied id.package (some id.version)]
      ((start store mode).grow id.package id.version) := recalls_start.grow_later
  rw [hrecalls.startsFor_eq, AuditStore.mem_startsAmong] at hv
  obtain ⟨hknown, _, hmoves⟩ := hv
  rcases AuditGraph.mem_map_known.1 (List.mem_map_of_mem hknown) with ⟨r, hr, hv⟩ | hv
  · obtain ⟨u, hu, heq⟩ := List.mem_map.1 hv
    exact heq ▸ AuditGraph.mem_named hr hu
  · obtain ⟨u, hu, heq⟩ := List.mem_map.1 hv
    rcases mem_askedOf_grow hu with hu | ⟨_, rfl⟩
    · cases hu
    · exact absurd heq.symm hmoves

/-- A start that no record names was asked about. -/
theorem Recalls.broughtUp [SetOrder] (h : Recalls mode calls s) (hc : c ∈ model)
    (hv : v ∈ (s.grow id.package id.version).startsFor id c)
    (hunnamed : v.toRelease ∉ AuditGraph.named store id.package) :
    BroughtUp store mode calls id c v := by
  have hgrown : Recalls mode (calls ++ [.satisfied id.package (some id.version)])
      (s.grow id.package id.version) := h.grow_later
  obtain ⟨hmoves, hbased⟩ := hgrown.mem_startsFor hc hv
  have hnamed : ∀ r ∈ store.recordsFor id.package,
      v.toRelease ∉ r.versions.map Version.toRelease := by
    intro r hr hmem
    obtain ⟨u, hu, heq⟩ := List.mem_map.1 hmem
    exact hunnamed (heq ▸ AuditGraph.mem_named hr hu)
  refine ⟨?_, hnamed, hmoves, hbased⟩
  rw [hgrown.startsFor_eq, AuditStore.mem_startsAmong] at hv
  have hmet := mem_of_mem_distinctOn ((Version.sortedSet_perm _ _).mem_iff.1 hv.1)
  rcases List.mem_append.1 hmet with hmet | hmet
  · exact absurd (List.mem_map_of_mem hmet) hunnamed
  · rcases mem_askedOf_grow hmet with hmet | ⟨_, rfl⟩
    · exact h.asked _ v hmet
    · exact absurd rfl hmoves

/-- Whether a change from one version is preferred to one from another: it costs less, or as much
and does not start lower. -/
def Preferred (cost : CostMetric) (id : PackageId) (v w : Version) : Prop :=
  cost id.package (some v) id.version < cost id.package (some w) id.version ∨
    cost id.package (some v) id.version = cost id.package (some w) id.version ∧
      v.toRelease.precedes w.toRelease = false

/-- Two versions that a change may start from, between which nothing decides: they cost the same, and
they are different releases of the same precedence. -/
structure Tied [SetOrder] (store : AuditStore model) (mode : ExemptionMode) (cost : CostMetric)
    (id : PackageId) (c : String) (v w : Version) : Prop where
  left : store.CanStart mode id c v
  right : store.CanStart mode id c w
  cost_eq : cost id.package (some v) id.version = cost id.package (some w) id.version
  compare_eq : Release.compare v.toRelease w.toRelease = .eq
  differ : v.toRelease ≠ w.toRelease

theorem Tied.not_apart [SetOrder] {w : Version} (h : Tied store mode cost id c v w) :
    ¬Release.Apart (AuditGraph.named store id.package) := fun hapart =>
  h.differ (hapart _ h.left.mem_named _ h.right.mem_named h.compare_eq)

theorem Recalls.pairwise_startsFor [SetOrder] (h : Recalls mode calls s) :
    (s.startsFor id c).Pairwise fun a b => a.toRelease.precedes b.toRelease = false := by
  rw [h.startsFor_eq]
  exact AuditStore.pairwise_startsAmong _

theorem Recalls.canStart_of_named [SetOrder] (h : Recalls mode calls s) (hc : c ∈ model)
    (hv : v ∈ s.startsFor id c) (hnamed : v.toRelease ∈ AuditGraph.named store id.package) :
    store.CanStart mode id c v := by
  rw [h.startsFor_eq] at hv
  exact AuditStore.canStart_of_mem_startsAmong hc hv hnamed

theorem Recalls.eq_of_mem_startsFor [SetOrder] {w : Version} (h : Recalls mode calls s)
    (hv : v ∈ s.startsFor id c) (hw : w ∈ s.startsFor id c) (heq : v.toRelease = w.toRelease) :
    v = w := by
  rw [h.startsFor_eq, AuditStore.mem_startsAmong] at hv hw
  exact List.inj_on_of_nodup_map AuditGraph.nodup_known hv.1 hw.1 heq

/-- Of the versions that records name two sessions choose the same one or tied ones, as each could
have chosen what the other one did. -/
theorem Recalls.eq_or_tied [SetOrder] {later : List Call} {t : Session store} {w : Version}
    (h : Recalls mode calls s) (ht : Recalls mode later t) (hc : c ∈ model)
    (hv : cheapest? (fun v => cost id.package (some v) id.version) (s.startsFor id c) = some v)
    (hw : cheapest? (fun v => cost id.package (some v) id.version) (t.startsFor id c) = some w)
    (hvnamed : v.toRelease ∈ AuditGraph.named store id.package)
    (hwnamed : w.toRelease ∈ AuditGraph.named store id.package) :
    v = w ∨ Tied store mode cost id c v w := by
  have hvmem : v ∈ t.startsFor id c :=
    (ht.mem_startsFor_named hvnamed).2 ((h.mem_startsFor_named hvnamed).1 (mem_of_cheapest? hv))
  have hwmem : w ∈ s.startsFor id c :=
    (h.mem_startsFor_named hwnamed).2 ((ht.mem_startsFor_named hwnamed).1 (mem_of_cheapest? hw))
  by_cases hsame : v = w
  · exact .inl hsame
  · have hfirst := cheapest?_preferred hv hwmem h.pairwise_startsFor (Ne.symm hsame)
    have hlater := cheapest?_preferred hw hvmem ht.pairwise_startsFor hsame
    have hcost : cost id.package (some v) id.version = cost id.package (some w) id.version := by
      omega
    have hvw : v.toRelease.precedes w.toRelease = false :=
      (hfirst.resolve_left (Int.not_lt.2 (Int.le_of_eq hcost.symm))).2
    have hwv : w.toRelease.precedes v.toRelease = false :=
      (hlater.resolve_left (Int.not_lt.2 (Int.le_of_eq hcost))).2
    refine .inr ⟨h.canStart_of_named hc (mem_of_cheapest? hv) hvnamed,
      ht.canStart_of_named hc (mem_of_cheapest? hw) hwnamed, hcost, ?_, fun heq => hsame ?_⟩
    · exact Std.OrientedCmp.isLE_antisymm (Release.not_precedes_iff.1 hwv)
        (Release.not_precedes_iff.1 hvw)
    · exact h.eq_of_mem_startsFor (mem_of_cheapest? hv) hwmem heq

/-- The audit that is considered is the one that a new session considers, or a change from a version
that was brought up and is preferred to what a new session would start from, or one from a version
that is tied with it. -/
theorem Recalls.candidate_cases [SetOrder] (h : Recalls mode calls s) (cost : CostMetric)
    (required : NameSet) (hc : c ∈ model) :
    let later := ((s.grow id.package id.version).candidate cost id c required).1
    let new := (((start store mode).grow id.package id.version).candidate cost id c required).1
    later = new ∨
      (∃ v, BroughtUp store mode calls id c v ∧ later = changeFrom cost id c v ∧
        ∀ w, new.start = some w → Preferred cost id v w) ∨
      ∃ v w, Tied store mode cost id c v w ∧ later = changeFrom cost id c v ∧
        new = changeFrom cost id c w := by
  have hgrown : Recalls mode (calls ++ [.satisfied id.package (some id.version)])
      (s.grow id.package id.version) := h.grow_later
  have hnew : Recalls mode [.satisfied id.package (some id.version)]
      ((start store mode).grow id.package id.version) := recalls_start.grow_later
  have hkept : ∀ w ∈ ((start store mode).grow id.package id.version).startsFor id c,
      w ∈ (s.grow id.package id.version).startsFor id c := fun w hw =>
    (hgrown.mem_startsFor_named (named_of_mem_startsFor_start hw)).2
      ((hnew.mem_startsFor_named (named_of_mem_startsFor_start hw)).1 hw)
  dsimp only
  rw [hgrown.candidate_eq, hnew.candidate_eq]
  cases hv : cheapest? (fun v => cost id.package (some v) id.version)
      ((s.grow id.package id.version).startsFor id c) with
  | none =>
    have hnone : ((start store mode).grow id.package id.version).startsFor id c = [] :=
      List.eq_nil_iff_forall_not_mem.2 fun w hw =>
        List.not_mem_nil (cheapest?_eq_none_iff.1 hv ▸ hkept w hw)
    rw [hnone]
    exact .inl rfl
  | some v =>
    have hvmem := mem_of_cheapest? hv
    by_cases hnamed : v.toRelease ∈ AuditGraph.named store id.package
    · have hsome : cheapest? (fun v => cost id.package (some v) id.version)
          (((start store mode).grow id.package id.version).startsFor id c) ≠ none := by
        rw [Ne, cheapest?_eq_none_iff]
        exact List.ne_nil_of_mem ((hnew.mem_startsFor_named hnamed).2
          ((hgrown.mem_startsFor_named hnamed).1 hvmem))
      obtain ⟨w, hw⟩ := Option.ne_none_iff_exists'.1 hsome
      rw [hw]
      rcases hgrown.eq_or_tied hnew hc hv hw hnamed
        (named_of_mem_startsFor_start (mem_of_cheapest? hw)) with rfl | htied
      · exact .inl rfl
      · exact .inr (.inr ⟨v, w, htied, rfl, rfl⟩)
    · refine .inr (.inl ⟨v, h.broughtUp hc hvmem hnamed, rfl, fun w hw => ?_⟩)
      have hwmem : w ∈ ((start store mode).grow id.package id.version).startsFor id c := by
        split at hw
        · next u hu =>
          obtain rfl : u = w := Option.some.inj hw
          exact mem_of_cheapest? hu
        · cases hw
      exact cheapest?_preferred hv (hkept w hwmem) hgrown.pairwise_startsFor fun heq =>
        hnamed (heq ▸ named_of_mem_startsFor_start hwmem)

/-- Something that sessions are asked for suggestions about. -/
inductive Request where
  | suggest (id : PackageId) (criterion : String) (required : NameSet)
  | suggestAll (report : Report)
  | usefulCriteria (package : String) (start : Option Version) (target : Version)

/-- The versions that a request is about, as calls. -/
def Request.asCalls : Request → List Call
  | suggest id _ _ => [.satisfied id.package (some id.version)]
  | suggestAll report =>
    report.failures.map fun p => .satisfied p.1.id.package (some p.1.id.version)
  | usefulCriteria package start target =>
    [.satisfied package start, .satisfied package (some target)]

/-- The session after a suggestion was asked for, be it that a name turned out to be unknown. -/
def trying [SetOrder] (s : Session store) (cost : CostMetric) (id : PackageId) (c : String)
    (required : NameSet) : Session store :=
  if c ∈ model then (s.suggest cost id c required).2 else s

/-- The session after failures were gone through, up to one that asks for an unknown name. -/
def tryingAll [SetOrder] (s : Session store) (cost : CostMetric) : List
    (Verdict × Failure) → Session store
  | [] => s
  | (v, f) :: rest =>
    match f.reason with
    | .violation _ => s.tryingAll cost rest
    | _ =>
      match s.suggestChecked cost v.id f.criterion v.required with
      | .ok (_, t) => t.tryingAll cost rest
      | .error _ => s.trying cost v.id f.criterion v.required

def request [SetOrder] (s : Session store) (cost : CostMetric) : Request → Session store
  | .suggest id c required => s.trying cost id c required
  | .suggestAll report => s.tryingAll cost report.failures
  | .usefulCriteria package start target => (s.usefulCriteria package start target).2

def afterRequests [SetOrder] (s : Session store) (cost : CostMetric) (history : List Request) :
    Session store :=
  history.foldl (fun s r => s.request cost r) s

variable {failures : List (Verdict × Failure)}

theorem suggestChecked_of_known [SetOrder] (hc : c ∈ model)
    (hrequired : ∀ d ∈ required, d ∈ model) :
    s.suggestChecked cost id c required = .ok (s.suggest cost id c required) := by
  have hcheck : model.check c = .ok () := model.check_eq_ok_iff.2 hc
  have hall : model.checkAll required.toList = .ok () :=
    CriteriaModel.checkAll_eq_ok_iff.2 hrequired
  simp only [suggestChecked, hcheck, hall]
  split <;> rfl

/-- Where all names are known, nothing stops the way through the failures. -/
theorem tryingAll_eq [SetOrder]
    (h : ∀ p ∈ failures, p.2.criterion ∈ model ∧ ∀ d ∈ p.1.required, d ∈ model) :
    s.tryingAll cost failures = (s.answerAll cost failures).2 := by
  induction failures generalizing s with
  | nil => rfl
  | cons p failures ih =>
    obtain ⟨v, f⟩ := p
    obtain ⟨⟨hc, hrequired⟩, hrest⟩ := List.forall_mem_cons.1 h
    rw [answerAll, tryingAll, answer]
    cases f.reason with
    | violation vs => exact ih hrest
    | _ =>
      dsimp only
      rw [suggestChecked_of_known hc hrequired]
      exact ih hrest

theorem Recalls.trying [SetOrder] (h : Recalls mode calls s)
    (hid : id.version ∈ calls.flatMap (Call.versionsOf id.package)) :
    Recalls mode calls (s.trying cost id c required) := by
  unfold Session.trying
  split
  · exact h.suggest hid
  · exact h

theorem suggestChecked_eq_ok [SetOrder] {answer : Suggestion × Session store}
    (h : s.suggestChecked cost id c required = .ok answer) :
    c ∈ model ∧ answer = s.suggest cost id c required ∧
      (answer.1.isFullReview = true → ∀ d ∈ required, d ∈ model) := by
  obtain ⟨_, hcheck, h⟩ := bind_eq_ok h
  have hc : c ∈ model := model.check_eq_ok_iff.1 hcheck
  dsimp only at h
  split at h
  · obtain ⟨_, hall, h⟩ := bind_eq_ok h
    obtain rfl := Except.ok.inj h
    exact ⟨hc, rfl, fun _ => CriteriaModel.checkAll_eq_ok_iff.1 hall⟩
  · next hpart =>
    obtain rfl := Except.ok.inj h
    exact ⟨hc, rfl, fun hfull => absurd hfull hpart⟩

theorem Recalls.tryingAll [SetOrder] (h : Recalls mode calls s)
    (hids : ∀ p ∈ failures, p.1.id.version ∈ calls.flatMap (Call.versionsOf p.1.id.package)) :
    Recalls mode calls (s.tryingAll cost failures) := by
  induction failures generalizing s with
  | nil => exact h
  | cons p failures ih =>
    obtain ⟨v, f⟩ := p
    obtain ⟨hid, hrest⟩ := List.forall_mem_cons.1 hids
    have htry : Recalls mode calls
        (match s.suggestChecked cost v.id f.criterion v.required with
        | .ok (_, t) => t.tryingAll cost failures
        | .error _ => s.trying cost v.id f.criterion v.required) := by
      split
      · next answer t hanswer =>
        obtain ⟨_, hsuggest, _⟩ := suggestChecked_eq_ok hanswer
        obtain rfl : t = (s.suggest cost v.id f.criterion v.required).2 :=
          congrArg Prod.snd hsuggest
        exact ih (h.suggest hid) hrest
      · exact h.trying hid
    rw [Session.tryingAll]
    cases f.reason with
    | violation vs => exact ih h hrest
    | exemptionExcluded => exact htry
    | noAuditPath => exact htry

theorem Recalls.weaken [SetOrder] (h : Recalls mode calls s) (more : List Call) :
    Recalls mode (calls ++ more) s where
  mode_eq := h.mode_eq
  asked := fun package v hv => by
    rw [List.flatMap_append]
    exact List.mem_append_left _ (h.asked package v hv)
  memo := h.memo

/-- Every request leaves a session that recalls what was asked of it. -/
theorem Recalls.request [SetOrder] (h : Recalls mode calls s) (cost : CostMetric) (r : Request) :
    Recalls mode (calls ++ r.asCalls) (s.request cost r) := by
  have hlater : Recalls mode (calls ++ r.asCalls) s := h.weaken r.asCalls
  have hmet : ∀ call ∈ r.asCalls, ∀ package, ∀ v ∈ call.versionsOf package,
      v ∈ (calls ++ r.asCalls).flatMap (Call.versionsOf package) := by
    intro call hcall package v hv
    exact List.mem_flatMap.2 ⟨call, List.mem_append_right _ hcall, hv⟩
  cases r with
  | suggest id c required =>
    exact hlater.trying (hmet _ (List.mem_singleton.2 rfl) _ _ (by simp [Call.versionsOf]))
  | suggestAll report =>
    refine hlater.tryingAll fun p hp => ?_
    exact hmet _ (List.mem_map_of_mem hp) _ _ (by simp [Call.versionsOf])
  | usefulCriteria package start target =>
    have htarget : target ∈ (calls ++ (Request.usefulCriteria package start target).asCalls).flatMap
        (Call.versionsOf package) :=
      hmet (.satisfied package (some target)) (by simp [Request.asCalls]) _ _
        (by simp [Call.versionsOf])
    cases start with
    | none =>
      have hid : (⟨package, target⟩ : PackageId).version ∈ _ := htarget
      exact hlater.satisfied hid
    | some v =>
      have hv : (⟨package, v⟩ : PackageId).version ∈ (calls ++
          (Request.usefulCriteria package (some v) target).asCalls).flatMap
            (Call.versionsOf package) :=
        hmet (.satisfied package (some v)) (by simp [Request.asCalls]) _ _
          (by simp [Call.versionsOf])
      have hid : (⟨package, target⟩ : PackageId).version ∈ _ := htarget
      exact (hlater.satisfied hv).satisfied hid

theorem Recalls.afterRequests [SetOrder] (h : Recalls mode calls s) (cost : CostMetric)
    (history : List Request) :
    Recalls mode (calls ++ history.flatMap Request.asCalls) (s.afterRequests cost history) := by
  induction history generalizing calls s with
  | nil => rwa [List.flatMap_nil, List.append_nil]
  | cons r history ih =>
    have hstep : Recalls mode (calls ++ r.asCalls ++ history.flatMap Request.asCalls)
        ((s.request cost r).afterRequests cost history) := ih (h.request cost r)
    rwa [List.append_assoc, ← List.flatMap_cons] at hstep

/-- Whether an answer is a change from a version that was brought up where a new session, if it
answers at all, proposes an audit as well: a whole review, or a change that is not preferred. -/
def Sidesteps [SetOrder] (store : AuditStore model) (mode : ExemptionMode) (cost : CostMetric)
    (calls : List Call) (id : PackageId) (c : String)
    (answer new : Except CriteriaFault Suggestion) : Prop :=
  ∃ v, BroughtUp store mode calls id c v ∧ answer = .ok (.proposed (changeFrom cost id c v)) ∧
    ∀ fresh, new = .ok fresh → ∃ b, fresh = .proposed b ∧ b.package = id.package ∧
      b.target = id.version ∧ ∀ w, b.start = some w → Preferred cost id v w

/-- Of what else is required nothing has to be known where only a change is considered. -/
theorem Recalls.considered_of_known_or_isDelta [SetOrder] (h : Recalls mode calls s)
    (hc : c ∈ model) (hundenied : store.Undenied id.key c) (hgap : c ∉ store.satisfied mode id)
    (hknown : (∀ d ∈ required, d ∈ model) ∨ (s.candidate cost id c required).1.isDelta = true) :
    Considered store mode id c (s.candidate cost id c required).1 := by
  rcases hknown with hrequired | hdelta
  · exact h.considered_candidate hc hrequired hundenied hgap
  · rw [h.candidate_eq] at hdelta ⊢
    split at hdelta
    · next v hv =>
      obtain ⟨hmoves, hbased⟩ := h.mem_startsFor hc (mem_of_cheapest? hv)
      exact considered_change hc hundenied hmoves hbased
    · cases hdelta

theorem offer_changeFrom [SetOrder] (hc : c ∈ model) (hundenied : store.Undenied id.key c)
    (hmoves : v.toRelease ≠ id.version.toRelease)
    (hbased : c ∈ store.satisfied mode ⟨id.package, v⟩) :
    store.offer mode c (changeFrom cost id c v) = .proposed (changeFrom cost id c v) :=
  if_pos (considered_change hc hundenied hmoves hbased).closes

theorem Recalls.suggest_cases [SetOrder] (h : Recalls mode calls s) (cost : CostMetric)
    (id : PackageId) (required : NameSet) (hc : c ∈ model) :
    let later := (s.suggest cost id c required).1
    let new := ((start store mode).suggest cost id c required).1
    later = new ∨
      (∃ v, BroughtUp store mode calls id c v ∧ later = .proposed (changeFrom cost id c v) ∧
        ∃ b : SuggestedAudit, new = store.offer mode c b ∧
          (((∀ d ∈ required, d ∈ model) ∨ b.isDelta = true) → Considered store mode id c b) ∧
          ∀ w, b.start = some w → Preferred cost id v w) ∨
      ∃ v w, Tied store mode cost id c v w ∧ later = .proposed (changeFrom cost id c v) ∧
        new = .proposed (changeFrom cost id c w) := by
  have hstart : Recalls mode [] (start store mode) := recalls_start
  dsimp only
  rw [h.suggest_eq, hstart.suggest_eq]
  cases hblocking : store.blocking id.package id.version.toRelease c with
  | cons w ws => exact .inl rfl
  | nil =>
    have hundenied : store.Undenied id.key c := AuditStore.blocking_eq_nil_iff.1 hblocking
    dsimp only
    split
    · exact .inl rfl
    · next hgap =>
      split
      · exact .inl rfl
      · rcases h.candidate_cases cost required hc with
          heq | ⟨v, hup, heq, hpreferred⟩ | ⟨v, w, htied, heq, hnew⟩
        · exact .inl (congrArg (store.offer mode c) heq)
        · refine .inr (.inl ⟨v, hup, ?_, _, rfl, fun hknown => ?_, hpreferred⟩)
          · rw [heq, offer_changeFrom hc hundenied hup.moves hup.based]
          · have hnew : Recalls mode [.satisfied id.package (some id.version)]
                ((start store mode).grow id.package id.version) := recalls_start.grow_later
            have hunsatisfied : c ∉ store.satisfied mode id := fun hsat =>
              hgap (store.mem_satisfied_iff_isSatisfied_resolve mode |>.1 hsat).2
            exact hnew.considered_of_known_or_isDelta hc hundenied hunsatisfied hknown
        · refine .inr (.inr ⟨v, w, htied, ?_, ?_⟩)
          · rw [heq, offer_changeFrom hc hundenied htied.left.moves htied.left.based]
          · rw [hnew, offer_changeFrom hc hundenied htied.right.moves htied.right.based]

theorem map_suggestChecked [SetOrder] : (s.suggestChecked cost id c required).map Prod.fst = (do
    model.check c
    if (s.suggest cost id c required).1.isFullReview then model.checkAll required.toList
    pure (s.suggest cost id c required).1) := by
  unfold suggestChecked
  cases model.check c with
  | error f => rfl
  | ok =>
    simp only [ok_bind]
    split
    · cases model.checkAll required.toList <;> rfl
    · rfl

/-- A change asks for nothing but its criterion to be known. -/
theorem map_suggestChecked_of_change [SetOrder] (hc : c ∈ model)
    (h : (s.suggest cost id c required).1 = .proposed (changeFrom cost id c v)) :
    (s.suggestChecked cost id c required).map Prod.fst =
      .ok (.proposed (changeFrom cost id c v)) := by
  have hcheck : model.check c = .ok () := model.check_eq_ok_iff.2 hc
  simp only [map_suggestChecked, h, hcheck, ok_bind]
  rfl

/-- Whether two answers are changes from versions that records name and that are tied. -/
def Interchanges [SetOrder] (store : AuditStore model) (mode : ExemptionMode) (cost : CostMetric)
    (id : PackageId) (c : String) (answer new : Except CriteriaFault Suggestion) : Prop :=
  ∃ v w, Tied store mode cost id c v w ∧ answer = .ok (.proposed (changeFrom cost id c v)) ∧
    new = .ok (.proposed (changeFrom cost id c w))

/-- What was asked before decides nothing of a suggestion but where a change starts, and that only
between versions that records name and versions that were brought up, or where versions are tied. -/
theorem suggestion_after_requests [SetOrder] (store : AuditStore model) (mode : ExemptionMode)
    (cost : CostMetric) (history : List Request) (id : PackageId) (c : String)
    (required : NameSet) :
    let answer := (((start store mode).afterRequests cost history).suggestChecked cost id c
      required).map Prod.fst
    let new := ((start store mode).suggestChecked cost id c required).map Prod.fst
    let sidesteps := Sidesteps store mode cost (history.flatMap Request.asCalls) id c answer new
    (answer = new ∨ sidesteps ∨ Interchanges store mode cost id c answer new) ∧
      (Release.Apart (AuditGraph.named store id.package) → answer = new ∨ sidesteps) := by
  intro answer new sidesteps
  suffices hcases : answer = new ∨ sidesteps ∨ Interchanges store mode cost id c answer new by
    refine ⟨hcases, fun hapart => ?_⟩
    rcases hcases with heq | hside | ⟨v, w, htied, _⟩
    · exact .inl heq
    · exact .inr hside
    · exact absurd hapart htied.not_apart
  have hrecalls : Recalls mode (history.flatMap Request.asCalls)
      ((start store mode).afterRequests cost history) := by
    simpa using recalls_start.afterRequests cost history
  by_cases hc : c ∈ model
  · rcases hrecalls.suggest_cases cost id required hc with
      heq | ⟨v, hup, hanswer, b, hb, hconsidered, hpreferred⟩ | ⟨v, w, htied, hanswer, hnew⟩
    · refine .inl ?_
      simp only [answer, new, map_suggestChecked, heq]
    · refine .inr (.inl ⟨v, hup, map_suggestChecked_of_change hc hanswer, fun fresh hfresh => ?_⟩)
      obtain ⟨⟨given, later⟩, hgiven, rfl⟩ := exists_of_map_eq_ok hfresh
      obtain ⟨_, hsuggest, hfull⟩ := suggestChecked_eq_ok hgiven
      have hgivenb : given = store.offer mode c b := (congrArg Prod.fst hsuggest).trans hb
      have hknown : (∀ d ∈ required, d ∈ model) ∨ b.isDelta = true := by
        by_cases hdelta : b.isDelta = true
        · exact .inr hdelta
        · refine .inl (hfull ?_)
          rw [hgivenb, AuditStore.offer]
          split
          · simp [Suggestion.isFullReview, hdelta]
          · simp [Suggestion.isFullReview, hdelta]
      have hfits : Considered store mode id c b := hconsidered hknown
      refine ⟨b, ?_, hfits.package_eq, hfits.target_eq, hpreferred⟩
      rw [hgivenb, AuditStore.offer, if_pos hfits.closes]
    · exact .inr (.inr ⟨v, w, htied, map_suggestChecked_of_change hc hanswer,
        map_suggestChecked_of_change hc hnew⟩)
  · have hcheck : model.check c = .error (model.unknownFault c) := if_neg hc
    refine .inl ?_
    simp only [answer, new, map_suggestChecked, hcheck]
    rfl

/-- A release that only a publisher is trusted with is what a change is proposed from, once it was
asked about. -/
theorem exists_history_that_shows :
    ¬∀ (model : CriteriaModel) (store : AuditStore model) (mode : ExemptionMode)
      (cost : CostMetric) (history : List Request) (id : PackageId) (c : String)
      (required : NameSet),
      (((start store mode).afterRequests cost history).suggestChecked cost id c required).map
          Prod.fst = ((start store mode).suggestChecked cost id c required).map Prod.fst := by
  intro h
  let granted : PackageId := ⟨"pad", { major := 3, minor := 0, patch := 0 }⟩
  let wanting : PackageId := ⟨"pad", { major := 2, minor := 99, patch := 0 }⟩
  have hsame := congrArg (fun r => (r.toOption.bind Suggestion.audit?).map SuggestedAudit.cost)
    (h .builtin reviewedTwice .deny versionDistance [.suggest granted safeToRun ∅] wanting
      safeToRun ∅)
  exact absurd hsame (by decide +kernel)

end Session

end Vetting
