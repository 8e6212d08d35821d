import Vetting.Json.Value

/-! The format of data files. Files hold what is read of them; what is read of a value that was
written is up to the format, which is only presumed to keep plain texts. -/

namespace Vetting

/-- A format that values are written in: what each of them is read as then. -/
class DataFormat where
  reread : Json → Json

/-- The format that keeps every value, with the members of objects sorted by name. -/
@[reducible]
def DataFormat.sorting : DataFormat := ⟨Json.sortMembers⟩

instance (priority := low) : DataFormat := .sorting

namespace Json

/-- Whether a text has no next-line character. It ends a line, and is read as any other line end. -/
def isPlainText (text : String) : Bool := text.toList.all fun c => c ≠ '\u0085'

mutual

/-- Whether all texts of a value are plain, the names of members among them. -/
def isPlain : Json → Bool
  | str text => isPlainText text
  | arr items => arePlain items
  | obj members => havePlain members
  | _ => true

def arePlain : List Json → Bool
  | [] => true
  | v :: rest => isPlain v && arePlain rest

def havePlain : List (String × Json) → Bool
  | [] => true
  | (name, v) :: rest => isPlainText name && isPlain v && havePlain rest

end

theorem havePlain_eq_all (ms : Members) :
    havePlain ms = ms.all fun m => isPlainText m.1 && m.2.isPlain := by
  induction ms with
  | nil => rfl
  | cons m ms ih => rw [havePlain, ih, List.all_cons]

end Json

/-- What is relied on of a format: plain values come back with the members of objects sorted. -/
structure DataFormat.Faithful [DataFormat] : Prop where
  reread_eq : ∀ v : Json, v.isPlain = true → reread v = v.sortMembers

theorem DataFormat.faithful_sorting : @Faithful .sorting := ⟨fun _ _ => rfl⟩

end Vetting
