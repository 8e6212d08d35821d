import Vetting.Graph.Cycle
import Mathlib.Logic.Relation

/-! A walk that closes no cycle. What it leaves behind leads round in no circle, since every vertex
that it is done with leads only to vertices that it was done with before. -/

namespace Vetting.Graph

variable {α κ : Type}

theorem not_transGen_self_of_acc {r : κ → κ → Prop} {k : κ} (h : Acc r k) :
    ¬Relation.TransGen r k k := by
  have hacc : Acc (Relation.TransGen r) k := h.transGen
  clear h
  induction hacc with
  | intro k _ ih => exact fun hk => ih k hk hk

def Follows (key : α → κ) (next : κ → List α) (a b : κ) : Prop := ∃ v ∈ next b, key v = a

theorem follows_id {next : κ → List κ} {a b : κ} : Follows id next b a ↔ b ∈ next a := by
  constructor
  · rintro ⟨v, hv, rfl⟩
    exact hv
  · intro hb
    exact ⟨b, hb, rfl⟩

/-- What a walk has still to look at, for every open vertex and for the start: whatever follows
one of them is left to look at or settled, and the vertices further in count as settled. -/
def Waiting (key : α → κ) (next : κ → List α) (vertices : List α) (settled : κ → Prop) :
    List α → List (List α) → Prop
  | [], [left] => ∀ v ∈ vertices, v ∈ left ∨ settled (key v)
  | u :: path, left :: todo => (∀ v ∈ next (key u), v ∈ left ∨ settled (key v)) ∧
      Waiting key next vertices (fun k => settled k ∨ k = key u) path todo
  | _, _ => False

variable {key : α → κ} {next : κ → List α} {vertices path left : List α} {todo : List (List α)}
  {white : List κ} {settled settled' : κ → Prop} {u v : α}

theorem Waiting.imp (h : Waiting key next vertices settled path todo)
    (himp : ∀ k, settled k → settled' k) : Waiting key next vertices settled' path todo := by
  induction path generalizing settled settled' todo with
  | nil =>
    cases todo with
    | nil => exact h
    | cons left todo =>
      cases todo with
      | nil => exact fun v hv => (h v hv).imp_right (himp _)
      | cons => exact h
  | cons u path ih =>
    cases todo with
    | nil => exact h
    | cons left todo =>
      obtain ⟨hleft, hrest⟩ := h
      refine ⟨fun v hv => (hleft v hv).imp_right (himp _), ih hrest fun k => ?_⟩
      exact Or.imp_left (himp k)

/-- A vertex is looked at: it need not be left any more if it is settled. -/
theorem Waiting.look (h : Waiting key next vertices settled path ((v :: left) :: todo))
    (hv : settled (key v)) : Waiting key next vertices settled path (left :: todo) := by
  have hlook : ∀ {w}, w ∈ v :: left ∨ settled (key w) → w ∈ left ∨ settled (key w) := by
    intro w hw
    rcases hw with hw | hw
    · rcases List.mem_cons.1 hw with rfl | hw
      · exact .inr hv
      · exact .inl hw
    · exact .inr hw
  cases path with
  | nil =>
    cases todo with
    | nil => exact fun w hw => hlook (h w hw)
    | cons => exact h
  | cons u path => exact ⟨fun w hw => hlook (h.1 w hw), h.2⟩

/-- A vertex is entered: it has everything left that follows it. -/
theorem Waiting.enter (h : Waiting key next vertices settled path ((v :: left) :: todo)) :
    Waiting key next vertices settled (v :: path) (next (key v) :: left :: todo) := by
  refine ⟨fun w hw => .inl hw, Waiting.look (v := v) ?_ (.inr rfl)⟩
  exact h.imp fun k hk => .inl hk

variable [DecidableEq κ]

theorem acc_of_cyclesFrom (hnone : cyclesFrom key next white path todo = [])
    (hclosed : ∀ u ∈ vertices, ∀ v ∈ next (key u), key v ∈ vertices.map key)
    (hwait : Waiting key next vertices (Acc (Follows key next)) path todo)
    (htodo : ∀ left ∈ todo, ∀ v ∈ left, key v ∈ vertices.map key)
    (hseen : ∀ k ∈ vertices.map key, k ∈ white ∨ k ∈ path.map key ∨ Acc (Follows key next) k) :
    ∀ v ∈ vertices, Acc (Follows key next) (key v) := by
  fun_induction cyclesFrom key next white path todo with
  | case1 white path =>
    cases path with
    | nil => exact hwait.elim
    | cons => exact hwait.elim
  | case2 white path todo ih =>
    cases path with
    | nil =>
      cases todo with
      | nil => exact fun v hv => (hwait v hv).resolve_left List.not_mem_nil
      | cons => exact hwait.elim
    | cons u path =>
      -- The walk leaves a vertex once all that follows it is settled, which settles it.
      obtain ⟨hleft, hrest⟩ := hwait
      have hu : Acc (Follows key next) (key u) := by
        refine ⟨_, fun k hk => ?_⟩
        obtain ⟨v, hv, rfl⟩ := hk
        exact (hleft v hv).resolve_left List.not_mem_nil
      refine ih hnone (hrest.imp fun k hk => ?_) (List.forall_mem_cons.1 htodo).2 fun k hk => ?_
      · exact hk.elim id fun he => he ▸ hu
      · rcases hseen k hk with hw | hp | ha
        · exact .inl hw
        · rcases List.mem_cons.1 hp with rfl | hp
          · exact .inr (.inr hu)
          · exact .inr (.inl hp)
        · exact .inr (.inr ha)
  | case3 => simp at hnone
  | case4 white path v left todo hopen hwhite ih =>
    obtain ⟨hleft, hrest⟩ := List.forall_mem_cons.1 htodo
    obtain ⟨hv, hleft⟩ := List.forall_mem_cons.1 hleft
    refine ih hnone hwait.enter ?_ fun k hk => ?_
    · obtain ⟨u, hu, hkey⟩ := List.mem_map.1 hv
      refine List.forall_mem_cons.2 ⟨?_, List.forall_mem_cons.2 ⟨hleft, hrest⟩⟩
      exact hkey ▸ hclosed u hu
    · by_cases hkv : k = key v
      · exact .inr (.inl (hkv ▸ List.mem_cons_self ..))
      · rcases hseen k hk with hw | hp | ha
        · exact .inl ((List.mem_erase_of_ne hkv).2 hw)
        · exact .inr (.inl (List.mem_cons_of_mem _ hp))
        · exact .inr (.inr ha)
  | case5 white path v left todo hopen hwhite ih =>
    -- A vertex that was seen before and is not open was left, and so is settled.
    obtain ⟨hleft, hrest⟩ := List.forall_mem_cons.1 htodo
    obtain ⟨hv, hleft⟩ := List.forall_mem_cons.1 hleft
    have hpath : key v ∉ path.map key := by
      intro hmem
      obtain ⟨u, hu, hkey⟩ := List.mem_map.1 hmem
      exact hopen (List.any_eq_true.2 ⟨u, hu, decide_eq_true hkey⟩)
    have hacc : Acc (Follows key next) (key v) :=
      ((hseen _ hv).resolve_left hwhite).resolve_left hpath
    exact ih hnone (hwait.look hacc) (List.forall_mem_cons.2 ⟨hleft, hrest⟩) hseen

/-- Where a walk from all vertices meets no cycle, no chain of followers goes on for ever. -/
theorem acc_of_cycles_eq_nil (hnone : cycles key next vertices = [])
    (hclosed : ∀ u ∈ vertices, ∀ v ∈ next (key u), key v ∈ vertices.map key) :
    ∀ v ∈ vertices, Acc (Follows key next) (key v) := by
  have hall : ∀ left ∈ [vertices], ∀ v ∈ left, key v ∈ vertices.map key := by
    intro left hleft v hv
    rw [List.mem_singleton.1 hleft] at hv
    exact List.mem_map_of_mem hv
  exact acc_of_cyclesFrom hnone hclosed (fun v hv => .inl hv) hall fun k hk => .inl hk

end Vetting.Graph
