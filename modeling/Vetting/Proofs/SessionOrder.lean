import Vetting.Proofs.GraphGrowth

/-! The order of a session. However its audit graphs came about, a session finds the paths that new
sessions find where sets are gone through as the session has the releases that it knows. -/

namespace Vetting

section Lists

variable {α : Type} [DecidableEq α] {l m : List α}

theorem pairwise_idxOf (hl : l.Nodup) : l.Pairwise fun a b => l.idxOf a < l.idxOf b := by
  rw [List.pairwise_iff_getElem]
  intro i j hi hj hij
  rw [hl.idxOf_getElem i hi, hl.idxOf_getElem j hj]
  exact hij

/-- Sorted by their places in a list, elements stand as the list has them. -/
theorem sortBy_idxOf (hl : l.Nodup) (hm : m.Nodup) (hsub : ∀ a ∈ m, a ∈ l) :
    sortBy (fun a b => decide (l.idxOf a < l.idxOf b)) m = l.filter fun a => decide (a ∈ m) := by
  have hasymm : ∀ a b, decide (l.idxOf a < l.idxOf b) = true →
      decide (l.idxOf b < l.idxOf a) = false := by
    intro a b hab
    exact decide_eq_false (Nat.lt_asymm (of_decide_eq_true hab))
  have htrans : ∀ a b c, decide (l.idxOf b < l.idxOf a) = false →
      decide (l.idxOf c < l.idxOf b) = false → decide (l.idxOf c < l.idxOf a) = false := by
    intro a b c hba hcb
    have hab : l.idxOf a ≤ l.idxOf b := Nat.not_lt.1 (of_decide_eq_false hba)
    exact decide_eq_false (Nat.not_lt.2 (Nat.le_trans hab (Nat.not_lt.1 (of_decide_eq_false hcb))))
  have hkept : (l.filter fun a => decide (a ∈ m)).Pairwise fun a b =>
      decide (l.idxOf b < l.idxOf a) = false :=
    ((pairwise_idxOf hl).filter _).imp fun hlt => decide_eq_false (Nat.lt_asymm hlt)
  have hsame : m.Perm (l.filter fun a => decide (a ∈ m)) := by
    rw [List.perm_ext_iff_of_nodup hm (hl.filter _)]
    intro a
    rw [List.mem_filter, decide_eq_true_eq]
    exact (and_iff_right_of_imp (hsub a)).symm
  refine ((sortBy_perm _ m).trans hsame).eq_of_pairwise ?_ (pairwise_sortBy hasymm htrans m) hkept
  intro a b ha _ hab hba
  have hplaces : l.idxOf a = l.idxOf b := Nat.le_antisymm
    (Nat.not_lt.1 (of_decide_eq_false hab)) (Nat.not_lt.1 (of_decide_eq_false hba))
  exact (List.idxOf_inj (hsub a (mem_sortBy.1 ha))).1 hplaces

end Lists

namespace Session

variable {model : CriteriaModel} {store : AuditStore model} {s : Session store} {package : String}
  {v : Version}

theorem askedOf_insert {versions : List Version} {p : String} :
    ({ s with asked := s.asked.insert package versions } : Session store).askedOf p =
      if p = package then versions else s.askedOf p := by
  rw [askedOf, NameMap.get?_insert]
  split
  · rfl
  · rfl

theorem has_graph_iff [SetOrder] {r : Release} :
    (s.graph package).has r = true ↔
      r ∈ (AuditGraph.known store package (s.askedOf package)).map Version.toRelease := by
  simp [AuditGraph.has, graph, AuditGraph.build]

/-- The releases of a package that a session knows, with some more, as it has them in order. -/
def ordered [SetOrder] (s : Session store) (package : String) (more : List Release) :
    List Release :=
  let met := distinctOn id (((store.recordsFor package).flatMap AuditRecord.versions ++
    s.askedOf package).map Version.toRelease ++ more)
  sortBy Release.precedes (sortBy (SetOrder.before package met) met)

/-- Sets that are gone through as a session has the releases that it knows with those of the set. -/
@[reducible]
def order [SetOrder] (s : Session store) : SetOrder where
  place package members r := (s.ordered package members).idxOf r

/-- A session that learns of a version has what it knows with that version in order. -/
theorem ordered_eq [SetOrder] : s.ordered package ((distinctOn Version.toRelease
      ((store.recordsFor package).flatMap AuditRecord.versions ++ [v])).map Version.toRelease) =
    (AuditGraph.known store package (s.askedOf package ++ [v])).map Version.toRelease := by
  have hmet : ∀ named asked : List Release, distinctOn id ((named ++ asked) ++
        distinctOn id (named ++ [v.toRelease])) =
      distinctOn id (named ++ (asked ++ [v.toRelease])) := by
    intro named asked
    have hnamed : (named.filter fun r => decide (id r ∉ (named ++ asked).map id)) = [] :=
      List.filter_eq_nil_iff.2 fun r hr => by simp [hr]
    rw [distinctOn_append, ← distinctOn_filter id fun r => decide (r ∉ (named ++ asked).map id),
      List.filter_append, hnamed, List.nil_append, ← List.append_assoc, distinctOn_append id _ [_]]
    exact congrArg _ (distinctOn_eq_self (pairwise_distinctOn id _))
  rw [AuditGraph.known, Version.map_toRelease_sortedSet, ordered, map_distinctOn, List.map_append,
    List.map_append, List.map_append, List.map_append, List.map_singleton, hmet]

theorem graph_grow [SetOrder] : (s.grow package v).graph package =
    .ofNodes store package (AuditGraph.known store package (s.askedOf package ++ [v])) := by
  unfold grow
  split
  · next hhas =>
    have hold : v.toRelease ∈ ((store.recordsFor package).flatMap AuditRecord.versions ++
        s.askedOf package).map Version.toRelease :=
      Version.mem_map_sortedSet.1 (has_graph_iff.1 hhas)
    have hsame : AuditGraph.known store package (s.askedOf package ++ [v]) =
        AuditGraph.known store package (s.askedOf package) := by
      rw [AuditGraph.known, ← List.append_assoc, Version.sortedSet_append_singleton hold]
      rfl
    rw [hsame]
    rfl
  · rw [graph, askedOf_insert, if_pos rfl]
    rfl

theorem mem_known_of_mem_met [SetOrder] {r : Release} (hr : r ∈ (distinctOn Version.toRelease
      ((store.recordsFor package).flatMap AuditRecord.versions ++ [v])).map Version.toRelease) :
    r ∈ (AuditGraph.known store package (s.askedOf package ++ [v])).map Version.toRelease := by
  rw [mem_map_distinctOn, List.map_append, List.mem_append] at hr
  have hmet : r ∈ ((store.recordsFor package).flatMap AuditRecord.versions ++
      (s.askedOf package ++ [v])).map Version.toRelease := by
    rw [List.map_append, List.map_append, List.mem_append, List.mem_append]
    exact hr.imp_right .inr
  exact Version.mem_map_sortedSet.2 hmet

/-- In the order of a session a new one has the releases that it knows as the session has them. -/
theorem map_known_order [SetOrder] :
    (@AuditGraph.known s.order model store package [v]).map Version.toRelease =
      ((AuditGraph.known store package (s.askedOf package ++ [v])).map Version.toRelease).filter
        fun r => decide (r ∈ (distinctOn Version.toRelease
          ((store.recordsFor package).flatMap AuditRecord.versions ++ [v])).map Version.toRelease) := by
  let members := (distinctOn Version.toRelease
    ((store.recordsFor package).flatMap AuditRecord.versions ++ [v])).map Version.toRelease
  have hplaces : sortBy (@SetOrder.before s.order package members) members =
      ((AuditGraph.known store package (s.askedOf package ++ [v])).map Version.toRelease).filter
        fun r => decide (r ∈ members) := by
    change sortBy (fun a b => decide ((s.ordered package members).idxOf a <
      (s.ordered package members).idxOf b)) members = _
    rw [ordered_eq]
    exact sortBy_idxOf AuditGraph.nodup_known (nodup_map_distinctOn _ _) fun _ hr =>
      mem_known_of_mem_met hr
  change (@Version.sortedSet s.order package _).map Version.toRelease = _
  rw [@Version.map_toRelease_sortedSet s.order, ← map_distinctOn]
  change sortBy Release.precedes (sortBy (@SetOrder.before s.order package members) members) = _
  rw [hplaces]
  exact sortBy_eq_self (AuditGraph.pairwise_known.filter _)

theorem keeps_order [SetOrder] : AuditGraph.Keeps store package
    (AuditGraph.known store package (s.askedOf package ++ [v]))
    (@AuditGraph.known s.order model store package [v]) := by
  refine ⟨@AuditGraph.named_known model store package [v] s.order, ?_⟩
  rw [map_known_order]
  refine List.filter_congr fun r hr => ?_
  rw [Bool.eq_iff_iff, decide_eq_true_eq, decide_eq_true_eq, List.mem_filter, decide_eq_true_eq]
  exact and_iff_right hr

/-- Whatever a session knows, what it finds is what a new one finds in the order of the session. -/
theorem resolve_eq_inOrder [SetOrder] (s : Session store) (id : PackageId) (criterion : String) :
    (s.resolve id criterion).1 = @AuditStore.resolve model store s.mode s.order id criterion := by
  by_cases hblocking : (store.blocking id.package id.version.toRelease criterion).isEmpty = true
  · simp only [Session.resolve, hblocking, if_true]
    rw [mode_grow, graph_grow]
    exact keeps_order.resolveIn_eq (@AuditStore.mem_known_self model store id s.order)
  · -- A veto is a veto over every graph of the package.
    simp only [Session.resolve, hblocking, if_false, Bool.false_eq_true]
    cases hdenied : store.blocking id.package id.version.toRelease criterion with
    | nil => simp [hdenied] at hblocking
    | cons w ws =>
      simp only [AuditStore.resolve, AuditStore.resolveIn, graph, AuditGraph.build, hdenied]

end Session

end Vetting
