import Vetting.Proofs.ClosedWalks
import Vetting.Proofs.Implication

/-! Lists of custom criteria under names of their own that imply defined criteria only. Such a list
is refused for a cycle exactly when a criterion leads back to itself, and the cycle is one of its
own; any other such list makes a model that is closed under implication. -/

namespace Vetting.CriteriaModel

/-- Whether a criterion of a list implies another one directly. -/
def Leads (criteria : List Criterion) (a b : String) : Prop :=
  ∃ e ∈ criteria, e.name = a ∧ b ∈ e.implies

/-- Whether names follow the implications of a list from a criterion back to it. -/
def Circle (criteria : List Criterion) (names : List String) : Prop :=
  ∃ first inner, names = first :: inner ++ [first] ∧ names.IsChain (Leads criteria)

/-- Whether custom criteria have distinct names, none of them built in, and imply only what they
or the built-in criteria define. -/
structure WellNamed (custom : List Criterion) : Prop where
  nodup : (custom.map Criterion.name).Nodup
  fresh : ∀ e ∈ custom, isBuiltin e.name = false
  defined : ∀ e ∈ custom, ∀ b ∈ e.implies, isBuiltin b = true ∨ ∃ f ∈ custom, f.name = b

/-- Whether a model is closed under steps of direct implication, and its order is theirs. -/
structure Closes (m : CriteriaModel) (leads : String → String → Prop) : Prop where
  mem_closure : ∀ a b, b ∈ m.closure a ↔ Relation.ReflTransGen leads a b
  mem_satisfiers : ∀ c ∈ m, ∀ d, d ∈ m.satisfiers c ↔ c ∈ m.closure d
  refl : ∀ a, m.implies a a = true
  trans : ∀ a b c, m.implies a b = true → m.implies b c = true → m.implies a c = true
  antisymm : ∀ a b, m.implies a b = true → m.implies b a = true → a = b

variable {m : CriteriaModel} {custom criteria : List Criterion} {names : List String} {a b : String}
  {f : CriteriaFault}

theorem Leads.mem_left (h : Leads criteria a b) : a ∈ namesOf criteria := by
  obtain ⟨e, he, rfl, _⟩ := h
  exact NameSet.mem_ofList.2 (List.mem_map_of_mem he)

theorem follows_eq_swap (hnodup : (criteria.map Criterion.name).Nodup) :
    Graph.Follows id (impliedBy criteria) = Function.swap (Leads criteria) := by
  funext b a
  exact propext (Graph.follows_id.trans (mem_impliedBy hnodup))

theorem ofList_eq_error_iff : ofList custom = .error f ↔ fault? custom = some f := by
  unfold ofList
  split
  · next hnone => simp [hnone]
  · next g hsome => simp [hsome]

namespace WellNamed

theorem nodup_names (h : WellNamed custom) :
    ((builtinCriteria ++ custom).map Criterion.name).Nodup :=
  nodup_names_append h.nodup h.fresh

theorem mem_right (h : WellNamed custom) (hstep : Leads (builtinCriteria ++ custom) a b) :
    b ∈ namesOf (builtinCriteria ++ custom) := by
  obtain ⟨e, he, _, hb⟩ := hstep
  rw [mem_namesOf_append]
  rcases List.mem_append.1 he with he | he
  · exact .inl (isBuiltin_of_mem_implies he hb)
  · exact h.defined e he b hb

/-- Only a cycle can be wrong with criteria under names that are in order. -/
theorem fault?_eq (h : WellNamed custom) :
    fault? custom = cycleFault? (builtinCriteria ++ custom) := by
  have hname : nameFault? [] custom = none :=
    nameFault?_eq_none h.nodup fun e he => ⟨h.fresh e he, List.not_mem_nil⟩
  have himplication : implicationFault? (builtinCriteria ++ custom) = none := by
    rw [implicationFault?, List.findSome?_eq_none_iff]
    intro e he
    rw [impliedFault?, Option.map_eq_none_iff, List.find?_eq_none]
    intro b hb
    rw [decide_eq_true_eq, not_not]
    exact h.mem_right ⟨e, he, rfl, hb⟩
  rw [fault?, hname, himplication]
  rfl

/-- No cycle is found if and only if no criterion leads back to itself. -/
theorem cycleFault?_eq_none_iff (h : WellNamed custom) :
    cycleFault? (builtinCriteria ++ custom) = none ↔
      ∀ a, ¬Relation.TransGen (Leads (builtinCriteria ++ custom)) a a := by
  have hknown : ∀ a, ∀ b ∈ impliedBy (builtinCriteria ++ custom) a,
      a ∈ (namesOf (builtinCriteria ++ custom)).toList.map id ∧
        id b ∈ (namesOf (builtinCriteria ++ custom)).toList.map id := by
    intro a b hb
    have hstep : Leads (builtinCriteria ++ custom) a b := (mem_impliedBy h.nodup_names).1 hb
    rw [List.map_id]
    exact ⟨hstep.mem_left, h.mem_right hstep⟩
  rw [cycleFault?, Option.map_eq_none_iff, List.head?_eq_none_iff, Graph.cycles_eq_nil_iff hknown,
    follows_eq_swap h.nodup_names]
  exact forall_congr' fun a => not_congr Relation.transGen_swap

theorem circle_of_cycleFault? (h : WellNamed custom)
    (hfault : cycleFault? (builtinCriteria ++ custom) = some (.cycle names)) :
    Circle (builtinCriteria ++ custom) names := by
  obtain ⟨walk, hhead, hwalk⟩ := Option.map_eq_some_iff.1 hfault
  obtain rfl : walk = names := CriteriaFault.cycle.inj hwalk
  obtain ⟨first, inner, last, rfl, hlast, hchain⟩ :=
    Graph.closedWalk_of_mem_cycles (List.mem_of_head? hhead)
  obtain rfl : last = first := hlast
  exact ⟨_, inner, rfl, hchain.imp fun _ _ => (mem_impliedBy h.nodup_names).1⟩

theorem ofList_eq_cycle_iff (h : WellNamed custom) :
    ofList custom = .error (.cycle names) ↔
      cycleFault? (builtinCriteria ++ custom) = some (.cycle names) := by
  rw [ofList_eq_error_iff, h.fault?_eq]

theorem exists_ofList_eq_cycle_iff (h : WellNamed custom) :
    (∃ names, ofList custom = .error (.cycle names)) ↔
      ∃ a, Relation.TransGen (Leads (builtinCriteria ++ custom)) a a := by
  have hnone := not_congr h.cycleFault?_eq_none_iff
  rw [not_forall_not] at hnone
  rw [← hnone]
  constructor
  · rintro ⟨names, hnames⟩
    rw [h.ofList_eq_cycle_iff.1 hnames]
    exact Option.some_ne_none _
  · intro hfound
    obtain ⟨f, hf⟩ := Option.ne_none_iff_exists'.1 hfound
    obtain ⟨names, _, rfl⟩ := Option.map_eq_some_iff.1 hf
    exact ⟨names, h.ofList_eq_cycle_iff.2 hf⟩

end WellNamed

/-- Every model is closed under the direct implications of its criteria. -/
theorem closes_leads (m : CriteriaModel) : m.Closes (Leads m.criteria) where
  mem_closure _ _ := mem_closure_iff
  mem_satisfiers c hc d := by
    rw [m.mem_satisfiers]
    exact and_iff_right_of_imp (left_mem_of_mem_closure hc)
  refl a := m.implies_iff.2 (m.self_mem_closure a)
  trans a b c hab hbc := by
    rw [implies_iff] at hab hbc ⊢
    exact closure_trans hab hbc
  antisymm a b hab hba := closure_antisymm (m.implies_iff.1 hab) (m.implies_iff.1 hba)

/-- Custom criteria under names that are in order are refused for a cycle if and only if one of
them leads back to itself, for a cycle that is one. Otherwise they make a model whose closures,
satisfiers and order are those of the direct implications. -/
theorem closed_or_circle (h : WellNamed custom) :
    ((∃ names, ofList custom = .error (.cycle names)) ↔
      ∃ a, Relation.TransGen (Leads (builtinCriteria ++ custom)) a a) ∧
    (∀ names, ofList custom = .error (.cycle names) → Circle (builtinCriteria ++ custom) names) ∧
    ((¬∃ a, Relation.TransGen (Leads (builtinCriteria ++ custom)) a a) →
      ∃ m, ofList custom = .ok m ∧
        (∀ a, a ∈ m ↔ isBuiltin a = true ∨ ∃ e ∈ custom, e.name = a) ∧
        m.Closes (Leads (builtinCriteria ++ custom))) := by
  refine ⟨h.exists_ofList_eq_cycle_iff, fun names hnames => ?_, fun hacyclic => ?_⟩
  · exact h.circle_of_cycleFault? (h.ofList_eq_cycle_iff.1 hnames)
  · have hnone : fault? custom = none := by
      rw [h.fault?_eq, h.cycleFault?_eq_none_iff]
      exact not_exists.1 hacyclic
    let m : CriteriaModel := ⟨custom, hnone⟩
    exact ⟨m, ofList_eq_ok_iff.2 rfl, fun a => mem_namesOf_append, m.closes_leads⟩

/-- A criterion that implies the run tier in two ways. -/
def diamond : List Criterion :=
  [{ name := "top", implies := .ofList ["left", "right"] },
   { name := "left", implies := .single safeToRun },
   { name := "right", implies := .single safeToRun }]

/-- Criteria that imply each other, and the deploy tier. -/
def ring : List Criterion :=
  [{ name := "a", implies := .ofList ["b", safeToDeploy] }, { name := "b", implies := .single "a" }]

theorem closed_or_circle_diamond_ring :
    (∃ m, ofList diamond = .ok m ∧ safeToRun ∈ m.closure "top") ∧
      ∃ names, ofList ring = .error (.cycle names) ∧ Circle (builtinCriteria ++ ring) names := by
  constructor
  · have hdiamond : WellNamed diamond := ⟨by decide +kernel, by decide +kernel, by decide +kernel⟩
    obtain ⟨hcycle, _, hclosed⟩ := closed_or_circle hdiamond
    have hnone : fault? diamond = none := by decide +kernel
    have hacyclic : ¬∃ a, Relation.TransGen (Leads (builtinCriteria ++ diamond)) a a := by
      rw [← hcycle]
      rintro ⟨names, hnames⟩
      rw [ofList_eq_error_iff, hnone] at hnames
      cases hnames
    obtain ⟨m, hm, _, hcloses⟩ := hclosed hacyclic
    have htop : Leads (builtinCriteria ++ diamond) "top" "left" := by
      refine ⟨_, List.mem_append_right _ (List.mem_cons_self ..), rfl, ?_⟩
      decide +kernel
    have hleft : Leads (builtinCriteria ++ diamond) "left" safeToRun :=
      ⟨_, List.mem_append_right _ (List.mem_cons_of_mem _ (List.mem_cons_self ..)), rfl,
        NameSet.mem_single.2 rfl⟩
    exact ⟨m, hm, (hcloses.mem_closure _ _).2 (.tail (.single htop) hleft)⟩
  · have hring : WellNamed ring := ⟨by decide +kernel, by decide +kernel, by decide +kernel⟩
    obtain ⟨hcycle, hcircle, _⟩ := closed_or_circle hring
    have hab : Leads (builtinCriteria ++ ring) "a" "b" := by
      refine ⟨_, List.mem_append_right _ (List.mem_cons_self ..), rfl, ?_⟩
      decide +kernel
    have hba : Leads (builtinCriteria ++ ring) "b" "a" :=
      ⟨_, List.mem_append_right _ (List.mem_cons_of_mem _ (List.mem_cons_self ..)), rfl,
        NameSet.mem_single.2 rfl⟩
    obtain ⟨names, hnames⟩ := hcycle.2 ⟨"a", .tail (.single hab) hba⟩
    exact ⟨names, hnames, hcircle names hnames⟩

end Vetting.CriteriaModel
