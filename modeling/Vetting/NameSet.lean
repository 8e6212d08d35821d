/-! Finite sets of names in their one written form: strictly ascending by code
point. Equal sets are equal values, so membership decides everything. -/

namespace Vetting

structure NameSet where
  toList : List String
  ascending : toList.Pairwise (· < ·)
deriving DecidableEq

namespace NameSet

instance : Membership String NameSet := ⟨fun s x => x ∈ s.toList⟩

instance (x : String) (s : NameSet) : Decidable (x ∈ s) :=
  inferInstanceAs (Decidable (x ∈ s.toList))

@[simp] theorem mem_toList {s : NameSet} {x : String} : x ∈ s.toList ↔ x ∈ s := Iff.rfl

instance : EmptyCollection NameSet := ⟨⟨[], .nil⟩⟩

instance : Inhabited NameSet := ⟨∅⟩

@[simp] theorem not_mem_empty (x : String) : x ∉ (∅ : NameSet) := List.not_mem_nil

/-- Insert a name into an ascending list, unless it is there. -/
def place (x : String) : List String → List String
  | [] => [x]
  | y :: ys => if x < y then x :: y :: ys else if x = y then y :: ys else y :: place x ys

theorem mem_place {x z : String} {l : List String} : z ∈ place x l ↔ z = x ∨ z ∈ l := by
  induction l with
  | nil => simp [place]
  | cons y ys ih =>
    simp only [place]
    split
    · simp
    · split
      · next h => simp [h]
      · simp [ih, or_left_comm]

theorem place_ascending {x : String} {l : List String} (h : l.Pairwise (· < ·)) :
    (place x l).Pairwise (· < ·) := by
  induction l with
  | nil => simp [place]
  | cons y ys ih =>
    have hy := List.pairwise_cons.1 h
    simp only [place]
    split
    · next hxy =>
      refine .cons (fun z hz => ?_) h
      rcases List.mem_cons.1 hz with rfl | hz
      · exact hxy
      · exact String.lt_trans hxy (hy.1 z hz)
    · next hxy =>
      split
      · exact h
      · next hne =>
        refine .cons (fun z hz => ?_) (ih hy.2)
        rcases mem_place.1 hz with rfl | hz
        · exact String.not_le.1 fun hle =>
            hne (String.le_antisymm hle (String.not_lt.1 hxy))
        · exact hy.1 z hz

def insert (x : String) (s : NameSet) : NameSet := ⟨place x s.toList, place_ascending s.ascending⟩

@[simp] theorem mem_insert {x z : String} {s : NameSet} : z ∈ s.insert x ↔ z = x ∨ z ∈ s :=
  mem_place

def ofList (l : List String) : NameSet := l.foldr insert ∅

@[simp] theorem mem_ofList {l : List String} {z : String} : z ∈ ofList l ↔ z ∈ l := by
  induction l with
  | nil => simp [ofList]
  | cons x xs ih => rw [ofList, List.foldr_cons, ← ofList]; simp [ih]

def single (x : String) : NameSet := ⟨[x], List.pairwise_singleton _ _⟩

@[simp] theorem mem_single {x z : String} : z ∈ single x ↔ z = x := List.mem_singleton

instance : Union NameSet := ⟨fun s t => s.toList.foldr insert t⟩

@[simp] theorem mem_union {s t : NameSet} {z : String} : z ∈ s ∪ t ↔ z ∈ s ∨ z ∈ t := by
  show z ∈ s.toList.foldr insert t ↔ z ∈ s.toList ∨ z ∈ t
  induction s.toList with
  | nil => simp
  | cons x xs ih => simp [ih, or_assoc]

def unions (sets : List NameSet) : NameSet := sets.foldr (· ∪ ·) ∅

@[simp] theorem mem_unions {sets : List NameSet} {z : String} :
    z ∈ unions sets ↔ ∃ s ∈ sets, z ∈ s := by
  induction sets with
  | nil => simp [unions]
  | cons s rest ih => rw [unions, List.foldr_cons, ← unions]; simp [ih]

def filter (p : String → Bool) (s : NameSet) : NameSet :=
  ⟨s.toList.filter p, s.ascending.filter p⟩

@[simp] theorem mem_filter {p : String → Bool} {s : NameSet} {z : String} :
    z ∈ s.filter p ↔ z ∈ s ∧ p z = true := List.mem_filter

instance : SDiff NameSet := ⟨fun s t => s.filter fun x => decide (x ∉ t)⟩

@[simp] theorem mem_sdiff {s t : NameSet} {z : String} : z ∈ s \ t ↔ z ∈ s ∧ z ∉ t := by
  show z ∈ s.filter _ ↔ _
  simp

def map (f : String → String) (s : NameSet) : NameSet := ofList (s.toList.map f)

@[simp] theorem mem_map {f : String → String} {s : NameSet} {z : String} :
    z ∈ s.map f ↔ ∃ x ∈ s, f x = z := by
  simp [map]

def isEmpty (s : NameSet) : Bool := s.toList.isEmpty

theorem isEmpty_iff {s : NameSet} : s.isEmpty = true ↔ ∀ x, x ∉ s := by
  simp only [isEmpty, List.isEmpty_iff]
  exact List.eq_nil_iff_forall_not_mem

theorem isEmpty_eq_false_iff {s : NameSet} : s.isEmpty = false ↔ ∃ x, x ∈ s := by
  rw [← Bool.not_eq_true, isEmpty_iff]
  simp

/-- Whether two sets share a name. -/
def meets (s t : NameSet) : Bool := s.toList.any fun x => decide (x ∈ t)

theorem meets_iff {s t : NameSet} : s.meets t = true ↔ ∃ x, x ∈ s ∧ x ∈ t := by
  simp [meets]

/-- Whether every name of one set is in another. -/
def within (s t : NameSet) : Bool := s.toList.all fun x => decide (x ∈ t)

theorem within_iff {s t : NameSet} : s.within t = true ↔ ∀ x, x ∈ s → x ∈ t := by
  simp [within]

/-- The names in ascending order, separated by commas. -/
def listed (s : NameSet) : String := ", ".intercalate s.toList

private theorem eq_of_ascending {l m : List String} (hl : l.Pairwise (· < ·))
    (hm : m.Pairwise (· < ·)) (h : ∀ x, x ∈ l ↔ x ∈ m) : l = m := by
  induction l generalizing m with
  | nil =>
    cases m with
    | nil => rfl
    | cons y ys => exact absurd ((h y).2 (List.mem_cons_self ..)) List.not_mem_nil
  | cons x xs ih =>
    cases m with
    | nil => exact absurd ((h x).1 (List.mem_cons_self ..)) List.not_mem_nil
    | cons y ys =>
      have hx := List.pairwise_cons.1 hl
      have hy := List.pairwise_cons.1 hm
      have hxy : x = y := by
        rcases List.mem_cons.1 ((h x).1 (List.mem_cons_self ..)) with e | hxm
        · exact e
        · rcases List.mem_cons.1 ((h y).2 (List.mem_cons_self ..)) with e | hym
          · exact e.symm
          · exact absurd (hx.1 y hym) (String.lt_asymm (hy.1 x hxm))
      subst hxy
      congr 1
      refine ih hx.2 hy.2 fun z => ⟨fun hz => ?_, fun hz => ?_⟩
      · rcases List.mem_cons.1 ((h z).1 (List.mem_cons_of_mem _ hz)) with rfl | hz'
        · exact absurd (hx.1 _ hz) (String.lt_irrefl _)
        · exact hz'
      · rcases List.mem_cons.1 ((h z).2 (List.mem_cons_of_mem _ hz)) with rfl | hz'
        · exact absurd (hy.1 _ hz) (String.lt_irrefl _)
        · exact hz'

/-- Sets with the same members are equal. -/
@[ext] theorem ext {s t : NameSet} (h : ∀ x, x ∈ s ↔ x ∈ t) : s = t := by
  obtain ⟨l, hl⟩ := s
  obtain ⟨m, hm⟩ := t
  have : l = m := eq_of_ascending hl hm h
  subst this
  rfl

end NameSet

end Vetting
