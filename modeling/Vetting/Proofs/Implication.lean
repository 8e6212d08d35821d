import Vetting.Criteria.Model
import Vetting.Proofs.CycleSearch
import Mathlib.Data.List.Basic

/-! Implication of criteria. The closure of a criterion is what steps of direct implication lead
to from it; criteria that imply each other are the same, so every set is covered by its minimal
members. -/

namespace Vetting.CriteriaModel

variable {m n : CriteriaModel} {a b c d : String} {s : NameSet} {custom remaining : List Criterion}
  {reached : NameSet} {taken : List String}

/-! What makes a list of custom criteria a model. -/

theorem nodup_of_nameFault? (h : nameFault? taken custom = none) :
    (custom.map Criterion.name).Nodup ∧
      ∀ e ∈ custom, isBuiltin e.name = false ∧ e.name ∉ taken := by
  induction custom generalizing taken with
  | nil => exact ⟨List.nodup_nil, fun _ he => absurd he List.not_mem_nil⟩
  | cons e es ih =>
    rw [nameFault?] at h
    split at h
    · cases h
    · next hbuiltin =>
      split at h
      · cases h
      · next htaken =>
        obtain ⟨hnodup, hes⟩ := ih h
        refine ⟨List.nodup_cons.2 ⟨fun hmem => ?_, hnodup⟩, List.forall_mem_cons.2 ⟨?_, ?_⟩⟩
        · obtain ⟨f, hf, hname⟩ := List.mem_map.1 hmem
          exact (hes f hf).2 (hname ▸ List.mem_cons_self ..)
        · exact ⟨Bool.eq_false_iff.2 hbuiltin, htaken⟩
        · intro f hf
          exact ⟨(hes f hf).1, fun hmem => (hes f hf).2 (List.mem_cons_of_mem _ hmem)⟩

theorem nameFault?_eq_none (hnodup : (custom.map Criterion.name).Nodup)
    (hfresh : ∀ e ∈ custom, isBuiltin e.name = false ∧ e.name ∉ taken) :
    nameFault? taken custom = none := by
  induction custom generalizing taken with
  | nil => rfl
  | cons e es ih =>
    obtain ⟨hname, hnodup⟩ := List.nodup_cons.1 hnodup
    obtain ⟨hfirst, hrest⟩ := List.forall_mem_cons.1 hfresh
    rw [nameFault?, hfirst.1, if_neg Bool.false_ne_true, if_neg hfirst.2]
    refine ih hnodup fun f hf => ⟨(hrest f hf).1, fun htaken => ?_⟩
    rcases List.mem_cons.1 htaken with heq | htaken
    · exact hname (heq ▸ List.mem_map_of_mem hf)
    · exact (hrest f hf).2 htaken

theorem nodup_names_append (hcustom : (custom.map Criterion.name).Nodup)
    (hfresh : ∀ e ∈ custom, isBuiltin e.name = false) :
    ((builtinCriteria ++ custom).map Criterion.name).Nodup := by
  rw [List.map_append, List.nodup_append]
  refine ⟨by decide +kernel, hcustom, fun x hx y hy => ?_⟩
  rintro rfl
  obtain ⟨e, he, rfl⟩ := List.mem_map.1 hy
  have hbuiltin : isBuiltin e.name = true :=
    decide_eq_true (NameSet.mem_ofList.2 hx)
  rw [hfresh e he] at hbuiltin
  cases hbuiltin

theorem find?_name {criteria : List Criterion} (hnodup : (criteria.map Criterion.name).Nodup)
    {e : Criterion} (he : e ∈ criteria) :
    criteria.find? (fun f => f.name = e.name) = some e := by
  induction criteria with
  | nil => cases he
  | cons f fs ih =>
    rw [List.map_cons, List.nodup_cons] at hnodup
    rcases List.mem_cons.1 he with rfl | he
    · simp
    · have hne : f.name ≠ e.name := fun heq => hnodup.1 (heq ▸ List.mem_map_of_mem he)
      rw [List.find?_cons_of_neg (by simpa using hne)]
      exact ih hnodup.2 he

/-- Where each name is defined once, what it implies is what its criterion does. -/
theorem mem_impliedBy {criteria : List Criterion} (hnodup : (criteria.map Criterion.name).Nodup) :
    b ∈ impliedBy criteria a ↔ ∃ e ∈ criteria, e.name = a ∧ b ∈ e.implies := by
  constructor
  · intro hb
    rw [impliedBy] at hb
    split at hb
    · next e he =>
      have hname := List.find?_some he
      exact ⟨e, List.mem_of_find?_eq_some he, of_decide_eq_true hname, hb⟩
    · cases hb
  · rintro ⟨e, he, rfl, hb⟩
    rw [impliedBy, find?_name hnodup he]
    exact hb

theorem faults_eq_none (m : CriteriaModel) :
    nameFault? [] m.custom = none ∧ implicationFault? m.criteria = none ∧
      cycleFault? m.criteria = none := by
  have hnone := m.faultless
  simpa [fault?, criteria] using hnone

theorem nodup_names : (m.criteria.map Criterion.name).Nodup := by
  obtain ⟨hcustom, hfresh⟩ := nodup_of_nameFault? m.faults_eq_none.1
  exact nodup_names_append hcustom fun e he => (hfresh e he).1

/-- Whether a criterion implies another one directly. -/
def Implies (m : CriteriaModel) (a b : String) : Prop :=
  ∃ e ∈ m.criteria, e.name = a ∧ b ∈ e.implies

theorem mem_iff : a ∈ m ↔ ∃ e ∈ m.criteria, e.name = a := by
  change a ∈ NameSet.ofList (m.criteria.map Criterion.name) ↔ _
  rw [NameSet.mem_ofList, List.mem_map]

theorem Implies.mem_left (h : m.Implies a b) : a ∈ m := by
  obtain ⟨e, he, hname, _⟩ := h
  exact mem_iff.2 ⟨e, he, hname⟩

theorem Implies.mem_right (h : m.Implies a b) : b ∈ m := by
  obtain ⟨e, he, _, hb⟩ := h
  have hnone : impliedFault? m.names e = none :=
    List.findSome?_eq_none_iff.1 m.faults_eq_none.2.1 e he
  rw [impliedFault?, Option.map_eq_none_iff, List.find?_eq_none] at hnone
  have hknown := hnone b hb
  rw [decide_eq_true_eq, not_not] at hknown
  exact hknown

theorem follows_iff : Graph.Follows id (impliedBy m.criteria) b a ↔ m.Implies a b := by
  rw [Graph.follows_id]
  exact mem_impliedBy m.nodup_names

/-- No chain of implications goes on for ever. -/
theorem acc_follows (ha : a ∈ m) : Acc (Graph.Follows id (impliedBy m.criteria)) a := by
  have hnone : Graph.cycles id (impliedBy m.criteria) m.names.toList = [] := by
    have hcycle := m.faults_eq_none.2.2
    rw [cycleFault?, Option.map_eq_none_iff, List.head?_eq_none_iff] at hcycle
    exact hcycle
  refine Graph.acc_of_cycles_eq_nil hnone (fun u _ v hv => ?_) a ha
  rw [List.map_id]
  exact (follows_iff.1 ⟨v, hv, rfl⟩ : m.Implies u v).mem_right

/-! The closure: sound, complete, and an order. -/

theorem reachable_of_mem_close (hsub : ∀ e ∈ remaining, e ∈ m.criteria)
    (hreached : ∀ b ∈ reached, Relation.ReflTransGen m.Implies a b)
    (hc : c ∈ close remaining reached) : Relation.ReflTransGen m.Implies a c := by
  fun_induction close remaining reached with
  | case1 => exact hreached c hc
  | case2 remaining reached e hfound ih =>
    refine ih (fun f hf => hsub f (List.mem_of_mem_eraseP hf)) (fun b hb => ?_) hc
    rcases NameSet.mem_union.1 hb with hb | hb
    · exact hreached b hb
    · have hmem := hsub e (List.mem_of_find?_eq_some hfound)
      have hname := List.find?_some hfound
      exact (hreached e.name (of_decide_eq_true hname)).tail ⟨e, hmem, rfl, hb⟩

theorem eq_or_mem_eraseP {e f : Criterion} {p : Criterion → Bool} (he : e ∈ remaining)
    (hfound : remaining.find? p = some f) : e = f ∨ e ∈ remaining.eraseP p := by
  induction remaining with
  | nil => cases he
  | cons g gs ih =>
    by_cases hg : p g = true
    · rw [List.find?_cons_of_pos hg] at hfound
      rw [List.eraseP_cons_of_pos hg]
      exact (List.mem_cons.1 he).imp_left fun heq => heq.trans (Option.some.inj hfound)
    · rw [List.find?_cons_of_neg hg] at hfound
      rw [List.eraseP_cons_of_neg hg]
      rcases List.mem_cons.1 he with rfl | he
      · exact .inr (List.mem_cons_self ..)
      · exact (ih he hfound).imp_right (List.mem_cons_of_mem _)

theorem close_closed {e : Criterion} (he : e ∈ remaining)
    (hname : e.name ∈ close remaining reached) (hb : b ∈ e.implies) :
    b ∈ close remaining reached := by
  fun_induction close remaining reached with
  | case1 remaining reached hnone =>
    have hnot := List.find?_eq_none.1 hnone e he
    exact absurd (decide_eq_true hname) hnot
  | case2 remaining reached f hfound ih =>
    rcases eq_or_mem_eraseP he hfound with rfl | he
    · exact subset_close _ _ (NameSet.mem_union.2 (.inr hb))
    · exact ih he hname

theorem mem_closure_iff : b ∈ m.closure a ↔ Relation.ReflTransGen m.Implies a b := by
  constructor
  · refine reachable_of_mem_close (fun _ he => he) fun c hc => ?_
    rw [NameSet.mem_single.1 hc]
  · intro h
    induction h with
    | refl => exact m.self_mem_closure a
    | tail _ hstep ih =>
      obtain ⟨e, he, rfl, hb⟩ := hstep
      exact close_closed he ih hb

theorem closure_trans (hb : b ∈ m.closure a) (hc : c ∈ m.closure b) : c ∈ m.closure a := by
  rw [mem_closure_iff] at *
  exact hb.trans hc

theorem mem_of_mem_closure (ha : a ∈ m) (hb : b ∈ m.closure a) : b ∈ m := by
  rcases Relation.ReflTransGen.cases_tail (mem_closure_iff.1 hb) with rfl | ⟨_, _, hstep⟩
  · exact ha
  · exact hstep.mem_right

theorem not_transGen_self : ¬Relation.TransGen m.Implies a a := by
  intro h
  have ha : a ∈ m := by
    obtain ⟨_, hstep, _⟩ := Relation.TransGen.head'_iff.1 h
    exact hstep.mem_left
  -- A circle of implications would be followed round and round.
  refine Graph.not_transGen_self_of_acc (acc_follows ha) (Relation.transGen_swap.1 ?_)
  exact Relation.TransGen.mono (fun _ _ => follows_iff.2) _ _ h

theorem closure_antisymm (hb : b ∈ m.closure a) (ha : a ∈ m.closure b) : a = b := by
  rw [mem_closure_iff] at ha hb
  rcases Relation.reflTransGen_iff_eq_or_transGen.1 hb with heq | hstep
  · exact heq.symm
  · exact absurd (hstep.trans_left ha) not_transGen_self

/-! Minimal members stand for the whole set. -/

theorem exists_mem_minimize (hc : c ∈ s) : ∃ d ∈ m.minimize s, c ∈ m.closure d := by
  -- By induction on how many members imply the criterion: one that implies it has fewer above it.
  induction hn : (s.toList.filter fun d => c ∈ m.closure d).length using Nat.strongRecOn
    generalizing c with
  | _ n ih =>
    by_cases hmin : c ∈ m.minimize s
    · exact ⟨c, hmin, m.self_mem_closure c⟩
    · obtain ⟨o, ho, hne, hoc⟩ : ∃ o ∈ s, o ≠ c ∧ c ∈ m.closure o := by
        by_contra hnone
        refine hmin (m.mem_minimize.2 ⟨hc, fun o ho hne hoc => hnone ⟨o, ho, hne, hoc⟩⟩)
      have hlt : (s.toList.filter fun d => o ∈ m.closure d).length < n := by
        have hsub : (s.toList.filter fun d => o ∈ m.closure d) =
            (s.toList.filter fun d => c ∈ m.closure d).filter fun d => o ∈ m.closure d := by
          rw [List.filter_filter]
          refine List.filter_congr fun d _ => ?_
          by_cases hd : o ∈ m.closure d
          · simp [hd, closure_trans hd hoc]
          · simp [hd]
        have hself : c ∈ s.toList.filter fun d => c ∈ m.closure d :=
          List.mem_filter.2 ⟨hc, decide_eq_true (m.self_mem_closure c)⟩
        rw [← hn, hsub, List.length_filter_lt_length_iff_exists]
        refine ⟨c, hself, fun hco => hne ?_⟩
        exact (closure_antisymm (of_decide_eq_true hco) hoc).symm
      obtain ⟨d, hd, hod⟩ := ih _ hlt ho rfl
      exact ⟨d, hd, closure_trans hod hoc⟩

theorem mem_expand_minimize : c ∈ m.expand (m.minimize s) ↔ c ∈ m.expand s := by
  rw [mem_expand, mem_expand]
  constructor
  · intro hx
    obtain ⟨d, hd, hc⟩ := hx
    exact ⟨d, (m.mem_minimize.1 hd).1, hc⟩
  · intro hx
    obtain ⟨d, hd, hc⟩ := hx
    obtain ⟨o, ho, hdo⟩ := exists_mem_minimize hd
    exact ⟨o, ho, closure_trans hdo hc⟩

/-! The built-in criteria imply the same in all models. -/

theorem mem_namesOf_append : a ∈ namesOf (builtinCriteria ++ custom) ↔
    isBuiltin a = true ∨ ∃ e ∈ custom, e.name = a := by
  rw [namesOf, NameSet.mem_ofList, List.map_append, List.mem_append, isBuiltin, decide_eq_true_eq,
    builtinNames, NameSet.mem_ofList]
  exact or_congr_right List.mem_map

theorem mem_of_isBuiltin (h : isBuiltin a = true) : a ∈ m := mem_namesOf_append.2 (.inl h)

/-- Built-in criteria imply built-in ones only. -/
theorem isBuiltin_of_mem_implies {e : Criterion} (he : e ∈ builtinCriteria) (hb : b ∈ e.implies) :
    isBuiltin b = true := by
  have hall : ∀ e ∈ builtinCriteria, ∀ d ∈ e.implies.toList, isBuiltin d = true := by
    decide +kernel
  exact hall e he b hb

theorem mem_builtinCriteria {e : Criterion} (he : e ∈ m.criteria) (h : isBuiltin e.name = true) :
    e ∈ builtinCriteria := by
  rcases List.mem_append.1 he with he | he
  · exact he
  · have hcustom := ((nodup_of_nameFault? m.faults_eq_none.1).2 e he).1
    rw [h] at hcustom
    cases hcustom

theorem mem_closure_of_isBuiltin (ha : isBuiltin a = true) (h : b ∈ m.closure a) :
    isBuiltin b = true ∧ b ∈ n.closure a := by
  rw [mem_closure_iff] at h
  induction h with
  | refl => exact ⟨ha, n.self_mem_closure a⟩
  | tail _ hstep ih =>
    obtain ⟨hbuiltin, hreached⟩ := ih
    obtain ⟨e, he, rfl, hd⟩ := hstep
    have hmem := mem_builtinCriteria he hbuiltin
    have hnext : n.Implies e.name _ := ⟨e, List.mem_append_left _ hmem, rfl, hd⟩
    exact ⟨isBuiltin_of_mem_implies hmem hd, mem_closure_iff.2 ((mem_closure_iff.1 hreached).tail hnext)⟩

theorem left_mem_of_mem_closure (hb : b ∈ m) (h : b ∈ m.closure a) : a ∈ m := by
  rcases Relation.ReflTransGen.cases_head (mem_closure_iff.1 h) with rfl | ⟨_, hstep, _⟩
  · exact hb
  · exact hstep.mem_left

end Vetting.CriteriaModel
