import Vetting.Text.Blank

/-! Decimal digits of every script and the numbers they spell. Each script has ten
consecutive digits, so its zero determines them. -/

namespace Vetting.Text

/-- The zeros of all decimal digits (Unicode general category Nd), in ascending order. -/
def digitZeros : List Nat :=
  [0x30, 0x660, 0x6f0, 0x7c0, 0x966, 0x9e6, 0xa66, 0xae6, 0xb66, 0xbe6, 0xc66, 0xce6, 0xd66,
   0xde6, 0xe50, 0xed0, 0xf20, 0x1040, 0x1090, 0x17e0, 0x1810, 0x1946, 0x19d0, 0x1a80, 0x1a90,
   0x1b50, 0x1bb0, 0x1c40, 0x1c50, 0xa620, 0xa8d0, 0xa900, 0xa9d0, 0xa9f0, 0xaa50, 0xabf0, 0xff10,
   0x104a0, 0x10d30, 0x11066, 0x110f0, 0x11136, 0x111d0, 0x112f0, 0x11450, 0x114d0, 0x11650,
   0x116c0, 0x11730, 0x118e0, 0x11950, 0x11c50, 0x11d50, 0x11da0, 0x16a60, 0x16ac0, 0x16b50,
   0x1d7ce, 0x1d7d8, 0x1d7e2, 0x1d7ec, 0x1d7f6, 0x1e140, 0x1e2f0, 0x1e950, 0x1fbf0]

def digitValue? (c : Char) : Option Nat :=
  (digitZeros.find? fun z => z ≤ c.toNat && c.toNat < z + 10).map (c.toNat - ·)

def isDecimalDigit (c : Char) : Bool := (digitValue? c).isSome

def isAsciiDigit (c : Char) : Bool := '0' ≤ c && c ≤ '9'

def isAsciiLetter (c : Char) : Bool := ('a' ≤ c && c ≤ 'z') || ('A' ≤ c && c ≤ 'Z')

/-- The number that a row of decimal digits spells, most significant first. -/
def number (cs : List Char) : Nat :=
  cs.foldl (fun n c => 10 * n + (digitValue? c).getD 0) 0

/-- What may follow a digit of a row: nothing, a digit, or an underscore and a digit. -/
def continuesRow : List Char → Bool
  | [] => true
  | '_' :: c :: cs => isDecimalDigit c && continuesRow cs
  | c :: cs => isDecimalDigit c && continuesRow cs

/-- A row of digits, with single underscores between some of them. -/
def isDigitRow : List Char → Bool
  | [] => false
  | c :: cs => isDecimalDigit c && continuesRow cs

def rowNumber? (cs : List Char) : Option Nat :=
  if isDigitRow cs then some (number (cs.filter (· ≠ '_'))) else none

/-- A whole number: a row of digits after a sign or none, with white space around it. -/
def wholeNumber? (s : String) : Option Int :=
  match trim isWhiteSpace s.toList with
  | '-' :: digits => (rowNumber? digits).map fun n => -(n : Int)
  | '+' :: digits => (rowNumber? digits).map fun n => (n : Int)
  | digits => (rowNumber? digits).map fun n => (n : Int)

def unsigned : List Char → List Char
  | '-' :: cs => cs
  | '+' :: cs => cs
  | cs => cs

def isExponent : List Char → Bool
  | [] => true
  | c :: cs => (c = 'e' || c = 'E') && isDigitRow (unsigned cs)

/-- A row of digits and what follows it, nothing of which is a digit or an underscore. -/
def digitRow (cs : List Char) : List Char × List Char :=
  (cs.takeWhile fun c => isDecimalDigit c || c = '_',
    cs.dropWhile fun c => isDecimalDigit c || c = '_')

/-- Whether a text spells a number, with or without a point and an exponent, or one of the
values that are none. -/
def isReal (s : String) : Bool :=
  let cs := unsigned (trim isWhiteSpace s.toList)
  if ["inf", "infinity", "nan"].contains (String.ofList (cs.map Char.toLower)) then true
  else
    match digitRow cs with
    | (whole, '.' :: rest) =>
      let (fraction, rest) := digitRow rest
      (isDigitRow whole || whole.isEmpty && isDigitRow fraction) &&
        (isDigitRow fraction || fraction.isEmpty) && isExponent rest
    | (whole, rest) => isDigitRow whole && isExponent rest

end Vetting.Text
