/-! Cycles met on a depth-first walk. Vertices are compared by a key and shown as
they were met; a cycle starts and ends with a vertex of one key. -/

namespace Vetting.Graph

variable {α κ : Type}

/-- What the elements of a list weigh together. -/
def weight (f : α → Nat) : List α → Nat
  | [] => 0
  | a :: as => f a + weight f as

variable [DecidableEq κ]

/-- The part of a path from the vertex with a key on, and that vertex again.
The path is given with its last vertex first. -/
def closing (key : α → κ) (path : List α) (v : α) : List α :=
  path.reverse.dropWhile (fun u => key u ≠ key v) ++ [v]

theorem weight_erase (f : κ → Nat) {l : List κ} {k : κ} (h : k ∈ l) :
    weight f (l.erase k) + f k = weight f l := by
  induction l with
  | nil => simp at h
  | cons a as ih =>
    by_cases hk : a = k
    · subst hk
      rw [List.erase_cons_head, weight, Nat.add_comm]
    · have hmem : k ∈ as := (List.mem_cons.1 h).resolve_left fun e => hk e.symm
      rw [List.erase_cons_tail (by simpa using hk), weight, weight, ← ih hmem, Nat.add_assoc]

/-- The cycles closed by a walk, in the order met. The walk has still to enter the
vertices of `white`; `path` holds the open vertices, innermost first, and the lists
after it what is left to look at for each of them, and last for the start. -/
def cyclesFrom (key : α → κ) (next : κ → List α) (white : List κ) (path : List α) :
    List (List α) → List (List α)
  | [] => []
  | [] :: todo => cyclesFrom key next white path.tail todo
  | (v :: vs) :: todo =>
    if path.any fun u => key u = key v then
      closing key path v :: cyclesFrom key next white path (vs :: todo)
    else if key v ∈ white then
      cyclesFrom key next (white.erase (key v)) (v :: path) (next (key v) :: vs :: todo)
    else cyclesFrom key next white path (vs :: todo)
termination_by todo =>
  weight (fun k => (next k).length + 1) white + weight (fun l => l.length + 1) todo
decreasing_by
  · simp only [weight, List.length_nil]
    omega
  · simp only [weight, List.length_cons]
    omega
  · next h =>
    -- A vertex that is entered has paid for the list of what follows it.
    have := weight_erase (fun k => (next k).length + 1) h
    simp only [weight, List.length_cons]
    omega
  · simp only [weight, List.length_cons]
    omega

/-- The cycles met on a walk from the given vertices, each entered at most once. -/
def cycles (key : α → κ) (next : κ → List α) (vertices : List α) : List (List α) :=
  cyclesFrom key next (vertices.map key) [] [vertices]

end Vetting.Graph
