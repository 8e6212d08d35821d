/-! Blank characters, and texts stripped of them at both ends. A character is
blank when Unicode calls it white space or an information separator. -/

namespace Vetting.Text

/-- The characters with the Unicode property White_Space. -/
def isWhiteSpace (c : Char) : Bool :=
  let n := c.toNat
  (9 ≤ n && n ≤ 13) || n == 32 || n == 0x85 || n == 0xa0 || n == 0x1680 ||
    (0x2000 ≤ n && n ≤ 0x200a) || n == 0x2028 || n == 0x2029 || n == 0x202f ||
    n == 0x205f || n == 0x3000

/-- White space and the information separators U+001C to U+001F. -/
def isBlank (c : Char) : Bool :=
  isWhiteSpace c || (28 ≤ c.toNat && c.toNat ≤ 31)

theorem isBlank_of_isWhitespace {c : Char} (h : c.isWhitespace = true) : isBlank c = true := by
  simp only [Char.isWhitespace, Bool.or_eq_true, decide_eq_true_eq] at h
  rcases h with ((rfl | rfl) | rfl) | rfl <;> decide

def trim (drops : Char → Bool) (cs : List Char) : List Char :=
  ((cs.dropWhile drops).reverse.dropWhile drops).reverse

def stripped (cs : List Char) : List Char := trim isBlank cs

def strip (s : String) : String := String.ofList (stripped s.toList)

@[simp] theorem toList_strip (s : String) : (strip s).toList = stripped s.toList := by
  simp [strip]

theorem dropWhile_eq_self {drops : Char → Bool} {cs : List Char}
    (h : ∀ c, cs.head? = some c → drops c = false) : cs.dropWhile drops = cs := by
  cases cs with
  | nil => rfl
  | cons c cs => simp [h c rfl]

theorem trim_eq_self {drops : Char → Bool} {cs : List Char}
    (hhead : ∀ c, cs.head? = some c → drops c = false)
    (hlast : ∀ c, cs.getLast? = some c → drops c = false) : trim drops cs = cs := by
  rw [trim, dropWhile_eq_self hhead, dropWhile_eq_self (by simpa using hlast), List.reverse_reverse]

end Vetting.Text
