import Vetting.NameSet

/-! Finite maps from names in their one written form: entries in strictly ascending
order of their names. -/

namespace Vetting

structure NameMap (α : Type) where
  entries : List (String × α)
  ascending : entries.Pairwise (·.1 < ·.1)

namespace NameMap

variable {α : Type}

instance [DecidableEq α] : DecidableEq (NameMap α) := fun m n =>
  if h : m.entries = n.entries then
    isTrue (by cases m; cases n; cases h; rfl)
  else isFalse fun e => h (by rw [e])

def empty : NameMap α := ⟨[], .nil⟩

instance : EmptyCollection (NameMap α) := ⟨empty⟩

instance : Inhabited (NameMap α) := ⟨∅⟩

def get? (m : NameMap α) (name : String) : Option α := m.entries.lookup name

/-- Put an entry into an ascending list, in place of one with its name. -/
def place (name : String) (value : α) : List (String × α) → List (String × α)
  | [] => [(name, value)]
  | (n, v) :: rest =>
    if name < n then (name, value) :: (n, v) :: rest
    else if name = n then (name, value) :: rest
    else (n, v) :: place name value rest

theorem eq_or_mem_of_mem_place {name : String} {value : α} {e : String × α}
    {l : List (String × α)} (h : e ∈ place name value l) : e = (name, value) ∨ e ∈ l := by
  induction l with
  | nil => simpa [place] using h
  | cons p rest ih =>
    obtain ⟨n, v⟩ := p
    simp only [place] at h
    split at h
    · simpa using h
    · split at h
      · rcases List.mem_cons.1 h with h | h
        · exact .inl h
        · exact .inr (List.mem_cons_of_mem _ h)
      · rcases List.mem_cons.1 h with h | h
        · exact .inr (h ▸ List.mem_cons_self ..)
        · exact (ih h).imp_right (List.mem_cons_of_mem _)

theorem place_ascending {name : String} {value : α} {l : List (String × α)}
    (h : l.Pairwise (·.1 < ·.1)) : (place name value l).Pairwise (·.1 < ·.1) := by
  induction l with
  | nil => exact List.pairwise_singleton _ _
  | cons p rest ih =>
    obtain ⟨n, v⟩ := p
    have hn := List.pairwise_cons.1 h
    simp only [place]
    split
    · next hlt =>
      refine .cons (fun e he => ?_) h
      rcases List.mem_cons.1 he with rfl | he
      · exact hlt
      · exact String.lt_trans hlt (hn.1 e he)
    · next hlt =>
      split
      · next heq => exact .cons (fun e he => heq ▸ hn.1 e he) hn.2
      · next hne =>
        refine .cons (fun e he => ?_) (ih hn.2)
        rcases eq_or_mem_of_mem_place he with rfl | he
        · exact String.not_le.1 fun hle => hne (String.le_antisymm hle (String.not_lt.1 hlt))
        · exact hn.1 e he

/-- The map with an entry put in place of what its name had. -/
def insert (m : NameMap α) (name : String) (value : α) : NameMap α :=
  ⟨place name value m.entries, place_ascending m.ascending⟩

theorem lookup_cons_eq (name other : String) (value : α) (l : List (String × α)) :
    ((name, value) :: l).lookup other = if other = name then some value else l.lookup other := by
  rw [List.lookup_cons]
  by_cases h : other = name
  · simp [h]
  · simp [h, beq_eq_false_iff_ne.2 h]

theorem lookup_place (name other : String) (value : α) (l : List (String × α)) :
    (place name value l).lookup other = if other = name then some value else l.lookup other := by
  induction l with
  | nil => exact lookup_cons_eq name other value []
  | cons p rest ih =>
    obtain ⟨n, v⟩ := p
    simp only [place]
    split
    · exact lookup_cons_eq ..
    · split
      · next heq =>
        subst heq
        simp only [lookup_cons_eq]
        split <;> rfl
      · next hne =>
        simp only [lookup_cons_eq, ih]
        split
        · next h => rw [if_neg fun e : other = name => hne (e.symm.trans h)]
        · rfl

@[simp] theorem get?_insert (m : NameMap α) (name other : String) (value : α) :
    (m.insert name value).get? other = if other = name then some value else m.get? other :=
  lookup_place name other value m.entries

@[simp] theorem get?_empty (name : String) : (∅ : NameMap α).get? name = none := rfl

/-- The map of a list of entries: of those with one name the last counts. -/
def ofList (l : List (String × α)) : NameMap α := l.foldl (fun m e => m.insert e.1 e.2) ∅

def names (m : NameMap α) : NameSet := NameSet.ofList (m.entries.map (·.1))

end NameMap

end Vetting
