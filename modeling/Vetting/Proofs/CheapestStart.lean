import Vetting.Proofs.NeededReviews

/-! Where a proposed change starts: of the versions that records name and that satisfy the criterion
at the cheapest one, and of several at the highest. Where there is none a whole version is to be
reviewed. -/

namespace Vetting

/-- The metrics that reviews are ranked by: the distance of versions, and a table of diffs. -/
inductive CostMetric.Offered : CostMetric → Prop
  | distance : Offered versionDistance
  | table (diffs : DiffTable) : Offered diffs.cost

section Metrics

variable {u v : Version} {cost : CostMetric}

theorem versionDistance_congr (h : u.toRelease = v.toRelease) (package : String)
    (target : Version) :
    versionDistance package (some u) target = versionDistance package (some v) target := by
  have hposition : linePosition u = linePosition v := by
    change 10000 * (u.toRelease.major : Int) + 100 * u.toRelease.minor + u.toRelease.patch =
      10000 * (v.toRelease.major : Int) + 100 * v.toRelease.minor + v.toRelease.patch
    rw [h]
  have hpre : u.pre = v.pre := congrArg Release.pre h
  have hrevision : u.revision = v.revision := congrArg Release.revision h
  simp only [versionDistance, Option.getD_some, hposition, hpre, hrevision]

theorem DiffTable.cost_congr (diffs : DiffTable) (h : u.toRelease = v.toRelease) (package : String)
    (target : Version) :
    diffs.cost package (some u) target = diffs.cost package (some v) target := by
  have hfind : diffs.find? package (some u) target = diffs.find? package (some v) target := by
    simp only [DiffTable.find?, DiffEntry.isOf, Option.map_some, h]
  unfold DiffTable.cost
  rw [hfind, versionDistance_congr h]

/-- Build metadata of the version that a change starts from cost nothing. -/
theorem CostMetric.Offered.congr (hcost : cost.Offered) (h : u.toRelease = v.toRelease)
    (package : String) (target : Version) :
    cost package (some u) target = cost package (some v) target := by
  cases hcost with
  | distance => exact versionDistance_congr h package target
  | table diffs => exact diffs.cost_congr h package target

end Metrics

/-- Of versions in descending order, the one that is chosen costs no more than any other, and of
those that cost as much none is higher. -/
theorem cheapest?_least {cost : Version → Int} {vs : List Version} {v w : Version}
    (h : cheapest? cost vs = some v)
    (hsorted : vs.Pairwise fun a b => a.toRelease.precedes b.toRelease = false) (hw : w ∈ vs) :
    cost v ≤ cost w ∧ (cost w = cost v → v.toRelease.precedes w.toRelease = false) := by
  by_cases hsame : w = v
  · subst hsame
    exact ⟨Int.le_refl _, fun _ => w.toRelease.not_precedes_self⟩
  · rcases cheapest?_preferred h hw hsorted hsame with hless | ⟨hequal, hhigh⟩
    · exact ⟨Int.le_of_lt hless, fun hcost => absurd hcost (Int.ne_of_gt hless)⟩
    · exact ⟨Int.le_of_eq hequal, fun _ => hhigh⟩

namespace AuditStore

variable {model : CriteriaModel} {store : AuditStore model} {mode : ExemptionMode}
  {id : PackageId} {c : String} {v : Version}

/-- Of versions that differ in their build metadata alone the first one that is named stands for
all. -/
theorem CanStart.exists_mem_startsAmong [SetOrder] (h : store.CanStart mode id c v)
    (more : List Version) :
    ∃ u ∈ store.startsAmong mode id c (AuditGraph.known store id.package more),
      u.toRelease = v.toRelease := by
  obtain ⟨r, haccepted, hpackage, hnamed⟩ := h.named
  have hrelease : v.toRelease ∈
      (AuditGraph.known store id.package more).map Version.toRelease :=
    AuditGraph.mem_map_known.2 (.inl ⟨r, mem_recordsFor.2 ⟨haccepted, hpackage⟩,
      List.mem_map_of_mem hnamed⟩)
  obtain ⟨u, hu, hsame⟩ := List.mem_map.1 hrelease
  have hkey : (⟨id.package, u⟩ : PackageId).key = (⟨id.package, v⟩ : PackageId).key :=
    congrArg (PackageKey.mk id.package) hsame
  have hbased : c ∈ store.satisfied mode ⟨id.package, u⟩ := by
    rw [satisfied_congr_key hkey]
    exact h.based
  have hresolved : (store.resolve mode ⟨id.package, u⟩ c).isSatisfied = true :=
    ((store.mem_satisfied_iff_isSatisfied_resolve mode).1 hbased).2
  have hmoves : u.toRelease ≠ id.version.toRelease := hsame ▸ h.moves
  exact ⟨u, mem_startsAmong.2 ⟨hu, hresolved, hmoves⟩, hsame⟩

end AuditStore

namespace Session

variable {model : CriteriaModel} {store : AuditStore model} {mode : ExemptionMode}
  {s : Session store} {cost : CostMetric} {id : PackageId} {c : String} {required : NameSet}
  {versions more : List Version} {a : SuggestedAudit} {v : Version}

theorem start_proposal [SetOrder] : (proposal store mode cost id required versions c).start =
    cheapest? (fun v => cost id.package (some v) id.version)
      (store.startsAmong mode id c versions) := by
  unfold proposal
  split
  · next v hv => exact hv.symm
  · next hnone => exact hnone.symm

theorem cost_proposal [SetOrder] : (proposal store mode cost id required versions c).cost =
    cost id.package (proposal store mode cost id required versions c).start id.version := by
  unfold proposal
  split
  · rfl
  · rfl

theorem review_proposal [SetOrder] :
    (proposal store mode cost id required versions c).package = id.package ∧
    (proposal store mode cost id required versions c).target = id.version := by
  unfold proposal
  split
  · exact ⟨rfl, rfl⟩
  · exact ⟨rfl, rfl⟩

theorem named_of_mem_startsAmong_start [SetOrder]
    (hv : v ∈ store.startsAmong mode id c ((start store mode).versionsBeside id)) :
    v.toRelease ∈ AuditGraph.named store id.package := by
  have hgrown : Recalls mode ([] ++ [.satisfied id.package (some id.version)])
      ((start store mode).grow id.package id.version) := recalls_start.grow_later
  have hgrownStart : v ∈ ((start store mode).grow id.package id.version).startsFor id c :=
    hgrown.startsFor_eq ▸ hv
  exact named_of_mem_startsFor_start hgrownStart

/-- Where an audit of a version starts, and what it costs: it is a change if there is a version to
start from, and then it starts from the highest of the cheapest ones. -/
structure StartsCheapest [SetOrder] (store : AuditStore model) (mode : ExemptionMode)
    (cost : CostMetric) (id : PackageId) (c : String) (a : SuggestedAudit) : Prop where
  package_eq : a.package = id.package
  target_eq : a.target = id.version
  isDelta_iff : a.isDelta = true ↔ ∃ v, store.CanStart mode id c v
  canStart : ∀ u, a.start = some u → store.CanStart mode id c u
  cost_eq : a.cost = cost id.package a.start id.version
  least : ∀ v, store.CanStart mode id c v → a.cost ≤ cost id.package (some v) id.version
  highest : ∀ u, a.start = some u → ∀ v, store.CanStart mode id c v →
    cost id.package (some v) id.version = a.cost → u.toRelease.precedes v.toRelease = false

/-- What is chosen from the starts in the audit graph is chosen from all versions that records name,
as build metadata tell no costs apart. -/
theorem startsCheapest_proposal [SetOrder] (hcost : cost.Offered) (hc : c ∈ model)
    (hnamed : ∀ v ∈ store.startsAmong mode id c (AuditGraph.known store id.package more),
      v.toRelease ∈ AuditGraph.named store id.package) :
    StartsCheapest store mode cost id c
      (proposal store mode cost id required (AuditGraph.known store id.package more) c) := by
  generalize ha : proposal store mode cost id required
    (AuditGraph.known store id.package more) c = a
  have hstart : a.start = cheapest? (fun v => cost id.package (some v) id.version)
      (store.startsAmong mode id c (AuditGraph.known store id.package more)) := by
    rw [← ha, start_proposal]
  have hprice : a.cost = cost id.package a.start id.version := ha ▸ cost_proposal
  obtain ⟨hpackage, htarget⟩ : a.package = id.package ∧ a.target = id.version :=
    ha ▸ review_proposal
  have hchosen : ∀ v, store.CanStart mode id c v → ∃ u, a.start = some u ∧
      cost id.package (some u) id.version ≤ cost id.package (some v) id.version ∧
        (cost id.package (some v) id.version = cost id.package (some u) id.version →
          u.toRelease.precedes v.toRelease = false) := by
    intro v hv
    obtain ⟨w, hw, hsame⟩ := hv.exists_mem_startsAmong more
    have hne : a.start ≠ none := by
      rw [hstart, Ne, cheapest?_eq_none_iff]
      exact List.ne_nil_of_mem hw
    obtain ⟨u, hu⟩ := Option.ne_none_iff_exists'.1 hne
    have hleast := cheapest?_least (hstart.symm.trans hu)
      (AuditStore.pairwise_startsAmong _) hw
    rw [hcost.congr hsame, hsame] at hleast
    exact ⟨u, hu, hleast⟩
  have hcan : ∀ u, a.start = some u → store.CanStart mode id c u := by
    intro u hu
    have hmem := mem_of_cheapest? (hstart.symm.trans hu)
    exact AuditStore.canStart_of_mem_startsAmong hc hmem (hnamed u hmem)
  refine ⟨hpackage, htarget, ⟨fun hdelta => ?_, fun hv => ?_⟩, hcan, hprice, fun v hv => ?_,
    fun u hu v hv hequal => ?_⟩
  · obtain ⟨u, hu⟩ := Option.isSome_iff_exists.1 hdelta
    exact ⟨u, hcan u hu⟩
  · obtain ⟨v, hv⟩ := hv
    obtain ⟨u, hu, _⟩ := hchosen v hv
    exact Option.isSome_iff_exists.2 ⟨u, hu⟩
  · obtain ⟨u, hu, hle, _⟩ := hchosen v hv
    rw [hprice, hu]
    exact hle
  · obtain ⟨w, hw, _, hhigh⟩ := hchosen v hv
    obtain rfl : w = u := Option.some.inj (hw.symm.trans hu)
    apply hhigh
    rw [hequal, hprice, hu]

/-- What a new session proposes starts from the highest of the cheapest versions that records name
and that satisfy the criterion. -/
theorem suggestChecked_starts_cheapest [SetOrder] (hcost : cost.Offered)
    (h : (start store mode).suggestChecked cost id c required = .ok (.proposed a, s)) :
    StartsCheapest store mode cost id c a := by
  obtain ⟨hc, hsuggest, _⟩ := suggestChecked_eq_ok h
  have hproposed : ((start store mode).suggest cost id c required).1 = .proposed a :=
    (congrArg Prod.fst hsuggest).symm
  rw [recalls_start.suggest_eq_proposal hproposed]
  exact startsCheapest_proposal hcost hc fun _ => named_of_mem_startsAmong_start

/-- A recorded diff makes the change from 1.0.0 as cheap as the one from 1.1.0, which is higher. -/
theorem suggestChecked_starts_cheapest_reviewedTwice :
    let first : Version := { major := 1, minor := 0, patch := 0 }
    let wanting : PackageId := ⟨"pad", { first with patch := 50 }⟩
    let diffs : DiffTable := [⟨"pad", some first, wanting.version, ⟨40, 10, 0⟩⟩]
    diffs.cost.Offered ∧ ∃ a s, (start reviewedTwice .deny).suggestChecked diffs.cost wanting
        safeToRun ∅ = .ok (.proposed a, s) ∧
      a.start = some { first with minor := 1 } ∧
        StartsCheapest reviewedTwice .deny diffs.cost wanting safeToRun a := by
  intro first wanting diffs
  obtain ⟨⟨answer, later⟩, hanswer, hstart⟩ : ∃ x, (start reviewedTwice .deny).suggestChecked
      diffs.cost wanting safeToRun ∅ = .ok x ∧
        decide ((x.1.audit?.bind SuggestedAudit.start) = some { first with minor := 1 }) = true :=
    exists_ok_of_any (by decide +kernel)
  obtain ⟨a, ha, hfrom⟩ := Option.bind_eq_some_iff.1 (of_decide_eq_true hstart)
  obtain rfl : answer = .proposed a := Suggestion.audit?_eq_some_iff.1 ha
  exact ⟨.table diffs, a, later, hanswer, hfrom,
    suggestChecked_starts_cheapest (.table diffs) hanswer⟩

end Session

end Vetting
