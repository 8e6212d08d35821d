/-! Stable sorting by a strict order, and lists kept to the first element of each
key. Elements that neither precede the other stay in the order they came in. -/

namespace Vetting

variable {α κ : Type}

/-- Insert an element in front of the first one that does not precede it. -/
def insertBy (lt : α → α → Bool) (a : α) : List α → List α
  | [] => [a]
  | b :: bs => if lt b a then b :: insertBy lt a bs else a :: b :: bs

def sortBy (lt : α → α → Bool) : List α → List α
  | [] => []
  | a :: as => insertBy lt a (sortBy lt as)

theorem insertBy_perm (lt : α → α → Bool) (a : α) (l : List α) :
    (insertBy lt a l).Perm (a :: l) := by
  induction l with
  | nil => exact .refl _
  | cons b bs ih =>
    simp only [insertBy]
    split
    · exact (ih.cons b).trans (.swap a b bs)
    · exact .refl _

theorem sortBy_perm (lt : α → α → Bool) (l : List α) : (sortBy lt l).Perm l := by
  induction l with
  | nil => exact .refl _
  | cons a as ih => exact (insertBy_perm lt a _).trans (ih.cons a)

theorem pairwise_insertBy {lt : α → α → Bool} {a : α} {l : List α}
    (asymm : ∀ x y, lt x y = true → lt y x = false)
    (trans : ∀ x y z, lt y x = false → lt z y = false → lt z x = false)
    (h : l.Pairwise fun x y => lt y x = false) :
    (insertBy lt a l).Pairwise fun x y => lt y x = false := by
  induction l with
  | nil => exact List.pairwise_singleton _ _
  | cons b bs ih =>
    have hb := List.pairwise_cons.1 h
    simp only [insertBy]
    split
    · next hlt =>
      refine .cons (fun c hc => ?_) (ih hb.2)
      rcases List.mem_cons.1 ((insertBy_perm lt a bs).mem_iff.1 hc) with rfl | hc
      · exact asymm b c hlt
      · exact hb.1 c hc
    · next hlt =>
      have hba : lt b a = false := Bool.eq_false_iff.2 hlt
      refine .cons (fun c hc => ?_) h
      rcases List.mem_cons.1 hc with rfl | hc
      · exact hba
      · exact trans a b c hba (hb.1 c hc)

/-- Where incomparability is transitive, nothing is sorted behind what it precedes. -/
theorem pairwise_sortBy {lt : α → α → Bool} (asymm : ∀ x y, lt x y = true → lt y x = false)
    (trans : ∀ x y z, lt y x = false → lt z y = false → lt z x = false) (l : List α) :
    (sortBy lt l).Pairwise fun x y => lt y x = false := by
  induction l with
  | nil => exact .nil
  | cons a as ih => exact pairwise_insertBy asymm trans ih

theorem sortBy_eq_self {lt : α → α → Bool} {l : List α}
    (h : l.Pairwise fun a b => lt b a = false) : sortBy lt l = l := by
  induction l with
  | nil => rfl
  | cons a as ih =>
    obtain ⟨hfirst, hrest⟩ := List.pairwise_cons.1 h
    rw [sortBy, ih hrest]
    cases as with
    | nil => rfl
    | cons b bs =>
      have hb : lt b a = false := hfirst b List.mem_cons_self
      rw [insertBy, hb]
      rfl

@[simp] theorem mem_sortBy {lt : α → α → Bool} {l : List α} {a : α} : a ∈ sortBy lt l ↔ a ∈ l :=
  (sortBy_perm lt l).mem_iff

@[simp] theorem length_sortBy (lt : α → α → Bool) (l : List α) :
    (sortBy lt l).length = l.length := (sortBy_perm lt l).length_eq

theorem map_insertBy {β : Type} (f : α → β) (lt : β → β → Bool) (a : α) (l : List α) :
    (insertBy (fun x y => lt (f x) (f y)) a l).map f = insertBy lt (f a) (l.map f) := by
  induction l with
  | nil => rfl
  | cons b bs ih =>
    simp only [insertBy, List.map_cons]
    split
    · rw [List.map_cons, ih]
    · rfl

/-- Elements sorted by what a map makes of them. -/
theorem map_sortBy {β : Type} (f : α → β) (lt : β → β → Bool) (l : List α) :
    (sortBy (fun x y => lt (f x) (f y)) l).map f = sortBy lt (l.map f) := by
  induction l with
  | nil => rfl
  | cons a as ih => rw [sortBy, map_insertBy, ih, List.map_cons, sortBy]

/-- The first element of each key, in the order met. -/
def distinctOn [DecidableEq κ] (key : α → κ) : List α → List α
  | [] => []
  | a :: as => a :: (distinctOn key as).filter fun b => key b ≠ key a

theorem distinctOn_sublist [DecidableEq κ] (key : α → κ) (l : List α) :
    (distinctOn key l).Sublist l := by
  induction l with
  | nil => exact .slnil
  | cons a as ih => exact (List.filter_sublist.trans ih).cons_cons a

theorem mem_of_mem_distinctOn [DecidableEq κ] {key : α → κ} {l : List α} {a : α}
    (h : a ∈ distinctOn key l) : a ∈ l := (distinctOn_sublist key l).subset h

theorem exists_mem_distinctOn [DecidableEq κ] {key : α → κ} {l : List α} {a : α} (h : a ∈ l) :
    ∃ b ∈ distinctOn key l, key b = key a := by
  induction l with
  | nil => simp at h
  | cons c cs ih =>
    by_cases hc : key c = key a
    · exact ⟨c, by simp [distinctOn], hc⟩
    · rcases List.mem_cons.1 h with rfl | h
      · exact absurd rfl hc
      · obtain ⟨b, hb, hk⟩ := ih h
        refine ⟨b, ?_, hk⟩
        simp only [distinctOn, List.mem_cons, List.mem_filter, decide_eq_true_eq]
        exact .inr ⟨hb, by rw [hk]; exact fun e => hc e.symm⟩

theorem mem_map_distinctOn [DecidableEq κ] {key : α → κ} {l : List α} {k : κ} :
    k ∈ (distinctOn key l).map key ↔ k ∈ l.map key := by
  constructor
  · intro h
    obtain ⟨a, ha, rfl⟩ := List.mem_map.1 h
    exact List.mem_map_of_mem (mem_of_mem_distinctOn ha)
  · intro h
    obtain ⟨a, ha, rfl⟩ := List.mem_map.1 h
    obtain ⟨b, hb, hkey⟩ : ∃ b ∈ distinctOn key l, key b = key a := exists_mem_distinctOn ha
    exact hkey ▸ List.mem_map_of_mem hb

theorem pairwise_distinctOn [DecidableEq κ] (key : α → κ) (l : List α) :
    (distinctOn key l).Pairwise fun a b => key a ≠ key b := by
  induction l with
  | nil => exact .nil
  | cons a as ih =>
    refine .cons (fun b hb => ?_) (ih.filter _)
    simp only [List.mem_filter, decide_eq_true_eq] at hb
    exact fun e => hb.2 e.symm

theorem distinctOn_eq_self [DecidableEq κ] {key : α → κ} {l : List α}
    (h : l.Pairwise fun a b => key a ≠ key b) : distinctOn key l = l := by
  induction l with
  | nil => rfl
  | cons a as ih =>
    obtain ⟨hfirst, hrest⟩ := List.pairwise_cons.1 h
    rw [distinctOn, ih hrest]
    congr 1
    exact List.filter_eq_self.2 fun b hb => decide_eq_true (Ne.symm (hfirst b hb))

theorem nodup_map_distinctOn [DecidableEq κ] (key : α → κ) (l : List α) :
    ((distinctOn key l).map key).Nodup :=
  List.pairwise_map.2 (pairwise_distinctOn key l)

theorem map_distinctOn [DecidableEq κ] (key : α → κ) (l : List α) :
    (distinctOn key l).map key = distinctOn id (l.map key) := by
  induction l with
  | nil => rfl
  | cons a as ih =>
    rw [distinctOn, List.map_cons, List.map_cons, distinctOn, ← ih, List.filter_map]
    rfl

/-- The first elements of some keys are found among those of these keys alone. -/
theorem distinctOn_filter [DecidableEq κ] (key : α → κ) (keep : κ → Bool) (l : List α) :
    distinctOn key (l.filter fun a => keep (key a)) =
      (distinctOn key l).filter fun a => keep (key a) := by
  induction l with
  | nil => rfl
  | cons a as ih =>
    rw [distinctOn, List.filter_cons, List.filter_cons]
    by_cases ha : keep (key a) = true
    · rw [if_pos ha, if_pos ha, distinctOn, ih, List.filter_filter, List.filter_filter]
      simp only [Bool.and_comm]
    · rw [if_neg ha, if_neg ha, ih, List.filter_filter]
      refine List.filter_congr fun b _ => ?_
      by_cases hb : key b = key a
      · simp [hb, ha]
      · simp [hb]

/-- Of elements behind others those are dropped whose keys were met before. -/
theorem distinctOn_append [DecidableEq κ] (key : α → κ) (l m : List α) :
    distinctOn key (l ++ m) =
      distinctOn key l ++ distinctOn key (m.filter fun b => decide (key b ∉ l.map key)) := by
  induction l with
  | nil =>
    have hall : (m.filter fun b => decide (key b ∉ ([] : List α).map key)) = m :=
      List.filter_eq_self.2 fun b _ => by simp
    rw [hall]
    rfl
  | cons a as ih =>
    have hrest : (m.filter fun b => decide (key b ∉ (a :: as).map key)) =
        (m.filter fun b => decide (key b ∉ as.map key)).filter fun b => decide (key b ≠ key a) := by
      rw [List.filter_filter]
      refine List.filter_congr fun b _ => ?_
      simp
    rw [List.cons_append, distinctOn, ih, List.filter_append, hrest,
      distinctOn_filter key fun k => decide (k ≠ key a)]
    rfl

theorem distinctOn_append_singleton [DecidableEq κ] (key : α → κ) (l : List α) (b : α) :
    distinctOn key (l ++ [b]) =
      if key b ∈ l.map key then distinctOn key l else distinctOn key l ++ [b] := by
  rw [distinctOn_append]
  split
  · next hmet =>
    rw [List.filter_cons_of_neg (by simpa using hmet), List.filter_nil, distinctOn, List.append_nil]
  · next hnew =>
    rw [List.filter_cons_of_pos (by simpa using hnew)]
    rfl

theorem distinctOn_append_of_forall_mem [DecidableEq κ] {key : α → κ} {l m : List α}
    (h : ∀ b ∈ m, key b ∈ l.map key) : distinctOn key (l ++ m) = distinctOn key l := by
  have hnone : (m.filter fun b => decide (key b ∉ l.map key)) = [] :=
    List.filter_eq_nil_iff.2 fun b hb => by simpa using h b hb
  rw [distinctOn_append, hnone, distinctOn, List.append_nil]

theorem length_distinctOn_le [DecidableEq κ] (key : α → κ) (l : List α) :
    (distinctOn key l).length ≤ l.length := (distinctOn_sublist key l).length_le

end Vetting
