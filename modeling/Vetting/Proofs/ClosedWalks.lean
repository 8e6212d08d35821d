import Vetting.Proofs.CycleSearch
import Mathlib.Data.List.Chain
import Mathlib.Data.List.TakeWhile

/-! The cycles that a depth-first walk reports. Each is a closed walk along what follows its
vertices, and a walk from all vertices reports none if and only if no vertex is reached from itself. -/

namespace Vetting.Graph

variable {α κ : Type}

/-- Whether vertices lead from a vertex back to it, each of them among what follows the one before. -/
def ClosedWalk (key : α → κ) (next : κ → List α) (walk : List α) : Prop :=
  ∃ first inner last, walk = first :: inner ++ [last] ∧ key last = key first ∧
    walk.IsChain fun u v => v ∈ next (key u)

/-- Whether the open vertices of a walk, innermost first, each follow the next one of them, and
what is left to look at for each of them follows it. -/
def Descends (key : α → κ) (next : κ → List α) : List α → List (List α) → Prop
  | u :: path, left :: todo => (∀ v ∈ left, v ∈ next (key u)) ∧ (∀ w ∈ path.head?, u ∈ next (key w)) ∧
      Descends key next path todo
  | [], _ => True
  | _ :: _, [] => False

variable {key : α → κ} {next : κ → List α} {vertices path left walk : List α}
  {todo : List (List α)} {white : List κ} {u v : α}

theorem Descends.isChain (h : Descends key next path todo) :
    path.IsChain fun v u => v ∈ next (key u) := by
  induction path generalizing todo with
  | nil => exact .nil
  | cons u path ih =>
    cases todo with
    | nil => exact h.elim
    | cons left todo =>
      obtain ⟨_, hnext, hrest⟩ := h
      exact List.isChain_cons.2 ⟨hnext, ih hrest⟩

/-- A vertex that is looked at follows the innermost open one. -/
theorem Descends.follows (h : Descends key next path ((v :: left) :: todo)) :
    ∀ w ∈ path.head?, v ∈ next (key w) := by
  intro w hw
  cases path with
  | nil => cases hw
  | cons u path =>
    obtain rfl := Option.some.inj hw
    exact h.1 v (List.mem_cons_self ..)

theorem Descends.look (h : Descends key next path ((v :: left) :: todo)) :
    Descends key next path (left :: todo) := by
  cases path with
  | nil => trivial
  | cons u path => exact ⟨fun w hw => h.1 w (List.mem_cons_of_mem _ hw), h.2⟩

theorem Descends.enter (h : Descends key next path ((v :: left) :: todo)) :
    Descends key next (v :: path) (next (key v) :: left :: todo) :=
  ⟨fun _ hw => hw, h.follows, h.look⟩

theorem Descends.leave (h : Descends key next path ([] :: todo)) :
    Descends key next path.tail todo := by
  cases path with
  | nil => trivial
  | cons u path => exact h.2.2

variable [DecidableEq κ]

/-- The part of a path from a vertex on is closed by an edge back to that vertex. -/
theorem closedWalk_closing (h : Descends key next path ((v :: left) :: todo))
    (hopen : path.any (fun u => key u = key v) = true) :
    ClosedWalk key next (closing key path v) := by
  have hchain : (path.reverse ++ [v]).IsChain fun u w => w ∈ next (key u) := by
    rw [List.isChain_append, List.isChain_reverse, List.getLast?_reverse]
    refine ⟨h.isChain, .singleton _, fun w hw x hx => ?_⟩
    obtain rfl := Option.some.inj hx
    exact h.follows w hw
  obtain ⟨u, hu, hkey⟩ := List.any_eq_true.1 hopen
  have hne : path.reverse.dropWhile (fun u => key u ≠ key v) ≠ [] := by
    intro hnil
    rw [List.dropWhile_eq_nil_iff] at hnil
    have hdropped := hnil u (List.mem_reverse.2 hu)
    exact of_decide_eq_true hdropped (of_decide_eq_true hkey)
  obtain ⟨first, inner, hrest⟩ := List.exists_cons_of_ne_nil hne
  have hfirst : key v = key first := by
    have hkept := List.head?_dropWhile_not (fun u => decide (key u ≠ key v)) path.reverse
    rw [hrest] at hkept
    exact (not_not.1 (of_decide_eq_false hkept)).symm
  have hsuffix : closing key path v <:+ path.reverse ++ [v] := by
    obtain ⟨front, hfront⟩ := List.dropWhile_suffix (l := path.reverse) fun u => key u ≠ key v
    refine ⟨front, ?_⟩
    rw [closing, ← List.append_assoc, hfront]
  refine ⟨first, inner, v, ?_, hfirst, hchain.suffix hsuffix⟩
  rw [closing, hrest]

theorem closedWalk_of_mem_cyclesFrom (h : Descends key next path todo)
    (hwalk : walk ∈ cyclesFrom key next white path todo) : ClosedWalk key next walk := by
  fun_induction cyclesFrom key next white path todo with
  | case1 => cases hwalk
  | case2 white path todo ih => exact ih h.leave hwalk
  | case3 white path v left todo hopen ih =>
    rcases List.mem_cons.1 hwalk with rfl | hwalk
    · exact closedWalk_closing h hopen
    · exact ih h.look hwalk
  | case4 white path v left todo hopen hwhite ih => exact ih h.enter hwalk
  | case5 white path v left todo hopen hwhite ih => exact ih h.look hwalk

/-- Every cycle that is reported is a closed walk. -/
theorem closedWalk_of_mem_cycles (h : walk ∈ cycles key next vertices) :
    ClosedWalk key next walk := by
  have hstart : Descends key next [] [vertices] := trivial
  exact closedWalk_of_mem_cyclesFrom hstart h

omit [DecidableEq κ] in
theorem transGen_of_isChain {inner : List α} {last : α}
    (h : (u :: inner ++ [last]).IsChain fun u v => v ∈ next (key u)) :
    Relation.TransGen (Follows key next) (key last) (key u) := by
  induction inner generalizing u with
  | nil => exact .single ⟨last, List.isChain_pair.1 h, rfl⟩
  | cons v inner ih =>
    obtain ⟨hstep, hrest⟩ := List.isChain_cons_cons.1 h
    exact (ih hrest).tail ⟨v, hstep, rfl⟩

/-- A walk from all vertices that lead anywhere meets no cycle if and only if none is reached from
itself. -/
theorem cycles_eq_nil_iff
    (hknown : ∀ k, ∀ v ∈ next k, k ∈ vertices.map key ∧ key v ∈ vertices.map key) :
    cycles key next vertices = [] ↔ ∀ k, ¬Relation.TransGen (Follows key next) k k := by
  constructor
  · intro hnone k hcircle
    obtain ⟨_, _, v, hv, _⟩ := Relation.TransGen.tail'_iff.1 hcircle
    obtain ⟨w, hw, rfl⟩ := List.mem_map.1 (hknown k v hv).1
    have hacc : Acc (Follows key next) (key w) :=
      acc_of_cycles_eq_nil hnone (fun u _ v hv => (hknown _ v hv).2) w hw
    exact not_transGen_self_of_acc hacc hcircle
  · intro hnone
    rw [List.eq_nil_iff_forall_not_mem]
    intro walk hwalk
    obtain ⟨first, inner, last, rfl, hkey, hchain⟩ := closedWalk_of_mem_cycles hwalk
    have hcircle := transGen_of_isChain hchain
    rw [hkey] at hcircle
    exact hnone _ hcircle

end Vetting.Graph
