/-! Texts as they reach an output that is no terminal: the control sequences that move
a cursor or style what follows are left out, and a line ends in a line feed alone. -/

namespace Vetting.Text

/-- The characters that stand for the parameters of a control sequence. -/
def isParameter (c : Char) : Bool := '0' ≤ c && c ≤ '?'

def isIntermediate (c : Char) : Bool := ' ' ≤ c && c ≤ '/'

/-- The characters that end a control sequence. -/
def isFinal (c : Char) : Bool := '@' ≤ c && c ≤ '~'

/-- The length of the control sequence that a text starts with; zero if there is none. It is
an escape and a bracket, then parameters, intermediate characters and one that ends it. -/
def controlLength : List Char → Nat
  | '\x1b' :: '[' :: cs =>
    let rest := (cs.dropWhile isParameter).dropWhile isIntermediate
    match rest with
    | c :: _ => if isFinal c then 3 + (cs.length - rest.length) else 0
    | [] => 0
  | _ => 0

/-- Leave out a number of characters, and every control sequence behind them. -/
def dropControls : Nat → List Char → List Char
  | _, [] => []
  | n + 1, _ :: cs => dropControls n cs
  | 0, c :: cs =>
    match controlLength (c :: cs) with
    | 0 => c :: dropControls 0 cs
    | n + 1 => dropControls n cs

/-- A carriage return is dropped where a line feed follows it. -/
def singleLineEnds : List Char → List Char
  | [] => []
  | c :: cs => if c = '\r' ∧ cs.head? = some '\n' then singleLineEnds cs else c :: singleLineEnds cs

def unstyled (s : String) : String :=
  String.ofList (singleLineEnds (dropControls 0 s.toList))

theorem controlLength_eq_zero {cs : List Char} (h : cs.head? ≠ some '\x1b') :
    controlLength cs = 0 := by
  unfold controlLength
  split
  · simp at h
  · rfl

theorem dropControls_eq_self {cs : List Char} (h : '\x1b' ∉ cs) : dropControls 0 cs = cs := by
  induction cs with
  | nil => rfl
  | cons c cs ih =>
    rw [List.mem_cons, not_or] at h
    have hc : controlLength (c :: cs) = 0 :=
      controlLength_eq_zero (by simpa using fun he => h.1 he.symm)
    simp only [dropControls, hc, ih h.2]

theorem singleLineEnds_eq_self {cs : List Char} (h : '\r' ∉ cs) : singleLineEnds cs = cs := by
  induction cs with
  | nil => rfl
  | cons c cs ih =>
    rw [List.mem_cons, not_or] at h
    simp [singleLineEnds, Ne.symm h.1, ih h.2]

/-- Nothing changes where there is neither an escape nor a carriage return. -/
theorem unstyled_eq_self {s : String} (hescape : '\x1b' ∉ s.toList) (hreturn : '\r' ∉ s.toList) :
    unstyled s = s := by
  rw [unstyled, dropControls_eq_self hescape, singleLineEnds_eq_self hreturn, String.ofList_toList]

end Vetting.Text
