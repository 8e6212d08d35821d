import Vetting.Criteria.Basic
import Vetting.Graph.Cycle

/-! Criteria models: the built-in criteria and custom ones, whose implications name
defined criteria and never lead back. Every value of the type is such a model. -/

namespace Vetting

namespace CriteriaModel

/-- The first custom criterion whose name is taken. -/
def nameFault? (taken : List String) : List Criterion → Option CriteriaFault
  | [] => none
  | c :: cs =>
    if isBuiltin c.name then some (.shadowsBuiltin c.name)
    else if c.name ∈ taken then some (.definedTwice c.name)
    else nameFault? (c.name :: taken) cs

def namesOf (criteria : List Criterion) : NameSet := NameSet.ofList (criteria.map (·.name))

/-- Where the implications of a criterion stand. -/
def impliesOf (name : String) : String := s!"implies of {Text.quoted name}"

/-- The first implication of a criterion that names no valid one. -/
def impliedFault? (valid : NameSet) (c : Criterion) : Option CriteriaFault :=
  (c.implies.toList.find? fun implied => decide (implied ∉ valid)).map fun implied =>
    .unknown implied valid (impliesOf c.name)

/-- The first implication that names no criterion. -/
def implicationFault? (criteria : List Criterion) : Option CriteriaFault :=
  criteria.findSome? (impliedFault? (namesOf criteria))

def impliedBy (criteria : List Criterion) (name : String) : List String :=
  match criteria.find? fun c => c.name = name with
  | some c => c.implies.toList
  | none => []

/-- The first cycle of implications that a walk from every name meets. -/
def cycleFault? (criteria : List Criterion) : Option CriteriaFault :=
  (Graph.cycles id (impliedBy criteria) (namesOf criteria).toList).head?.map .cycle

def fault? (custom : List Criterion) : Option CriteriaFault :=
  nameFault? [] custom <|> implicationFault? (builtinCriteria ++ custom) <|>
    cycleFault? (builtinCriteria ++ custom)

end CriteriaModel

/-- The built-in criteria together with custom ones that nothing is wrong with. -/
structure CriteriaModel where
  custom : List Criterion
  faultless : CriteriaModel.fault? custom = none

namespace CriteriaModel

def ofList (custom : List Criterion) : Except CriteriaFault CriteriaModel :=
  match h : fault? custom with
  | none => .ok ⟨custom, h⟩
  | some f => .error f

theorem ofList_eq_ok_iff {custom : List Criterion} {m : CriteriaModel} :
    ofList custom = .ok m ↔ m.custom = custom := by
  constructor
  · intro h
    unfold ofList at h
    split at h
    · cases h; rfl
    · cases h
  · rintro rfl
    unfold ofList
    split
    · rfl
    · next f h => exact absurd (h.symm.trans m.faultless) (by simp)

def builtin : CriteriaModel := ⟨[], by decide +kernel⟩

instance : Inhabited CriteriaModel := ⟨builtin⟩

variable (m : CriteriaModel)

def criteria : List Criterion := builtinCriteria ++ m.custom

def names : NameSet := namesOf m.criteria

instance : Membership String CriteriaModel := ⟨fun m name => name ∈ m.names⟩

instance (name : String) (m : CriteriaModel) : Decidable (name ∈ m) :=
  inferInstanceAs (Decidable (name ∈ m.names))

def find? (name : String) : Option Criterion := m.criteria.find? fun c => c.name = name

def customNames : NameSet := namesOf m.custom

/-- Add what reached criteria imply until nothing is left to add. -/
def close (remaining : List Criterion) (reached : NameSet) : NameSet :=
  match _found : remaining.find? fun c => decide (c.name ∈ reached) with
  | none => reached
  | some c =>
    -- A criterion is used up once what it implies is added.
    close (remaining.eraseP fun c => decide (c.name ∈ reached)) (reached ∪ c.implies)
termination_by remaining.length
decreasing_by
  have hmem := List.mem_of_find?_eq_some _found
  have hp := List.find?_some _found
  rw [List.length_eraseP_of_mem hmem hp]
  have := List.length_pos_of_mem hmem
  omega

theorem subset_close (remaining : List Criterion) (reached : NameSet) {c : String}
    (h : c ∈ reached) : c ∈ close remaining reached := by
  fun_induction close remaining reached with
  | case1 => exact h
  | case2 remaining reached d _ ih => exact ih (NameSet.mem_union.2 (.inl h))

def closure (name : String) : NameSet := close m.criteria (.single name)

theorem self_mem_closure (name : String) : name ∈ m.closure name :=
  subset_close _ _ (NameSet.mem_single.2 rfl)

/-- The criteria that imply a criterion, itself included. -/
def satisfiers (name : String) : NameSet := m.names.filter fun d => decide (name ∈ m.closure d)

theorem mem_satisfiers {c d : String} : d ∈ m.satisfiers c ↔ d ∈ m ∧ c ∈ m.closure d := by
  rw [satisfiers, NameSet.mem_filter, decide_eq_true_eq]
  rfl

def implies (stronger weaker : String) : Bool := decide (weaker ∈ m.closure stronger)

theorem implies_iff {stronger weaker : String} :
    m.implies stronger weaker = true ↔ weaker ∈ m.closure stronger := decide_eq_true_iff

def expand (s : NameSet) : NameSet := .unions (s.toList.map m.closure)

theorem mem_expand {s : NameSet} {c : String} : c ∈ m.expand s ↔ ∃ d ∈ s, c ∈ m.closure d := by
  rw [expand, NameSet.mem_unions]
  constructor
  · rintro ⟨t, ht, hc⟩
    obtain ⟨d, hd, rfl⟩ := List.mem_map.1 ht
    exact ⟨d, hd, hc⟩
  · rintro ⟨d, hd, hc⟩
    exact ⟨m.closure d, List.mem_map_of_mem hd, hc⟩

/-- The names of a set that no other name of it implies. -/
def minimize (s : NameSet) : NameSet :=
  s.filter fun c => !s.toList.any fun o => decide (o ≠ c) && m.implies o c

theorem mem_minimize {s : NameSet} {c : String} :
    c ∈ m.minimize s ↔ c ∈ s ∧ ∀ o ∈ s, o ≠ c → c ∉ m.closure o := by
  simp [minimize, implies]

/-- Requirements brought down to the run tier: what implies it becomes it. -/
def downgrade (s : NameSet) : NameSet :=
  s.map fun c => if m.implies c safeToRun then safeToRun else c

def unknownIn (s : NameSet) : NameSet := s.filter fun c => decide (c ∉ m)

def unknownFault (name : String) (context : String := "") : CriteriaFault :=
  .unknown name m.names context

def check (name : String) (context : String := "") : Except CriteriaFault Unit :=
  if name ∈ m then .ok () else .error (m.unknownFault name context)

theorem check_eq_ok_iff {name context : String} :
    m.check name context = .ok () ↔ name ∈ m := by
  unfold check
  split <;> simp_all

def checkAll (names : List String) (context : String := "") : Except CriteriaFault Unit :=
  names.forM fun name => m.check name context

/-- Fail where minimizing has to look up a name that is no criterion: a set of one
name is minimal whatever the name. -/
def checkMinimizable (s : NameSet) : Except CriteriaFault Unit :=
  if s.toList.length ≤ 1 then .ok () else m.checkAll s.toList

end CriteriaModel

end Vetting
