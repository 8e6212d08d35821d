import Vetting.Json.Value

/-! Reading document values from their text. The reader is total: the fuel it
runs on is computed from the length of the text and always suffices. -/

namespace Vetting.Json

namespace Reader

def skip (cs : List Char) : List Char :=
  cs.dropWhile fun c => c = ' ' || c = '\n' || c = '\t' || c = '\r'

def hexDigit? (c : Char) : Option Nat :=
  if '0' ≤ c && c ≤ '9' then some (c.toNat - 48)
  else if 'a' ≤ c && c ≤ 'f' then some (c.toNat - 87)
  else if 'A' ≤ c && c ≤ 'F' then some (c.toNat - 55)
  else none

def hexUnit? (a b c d : Char) : Option Nat := do
  let a ← hexDigit? a
  let b ← hexDigit? b
  let c ← hexDigit? c
  let d ← hexDigit? d
  pure (((a * 16 + b) * 16 + c) * 16 + d)

/-- The character that a one-letter escape names. -/
def escape? : Char → Option Char
  | 'n' => some '\n'
  | 't' => some '\t'
  | 'r' => some '\r'
  | 'b' => some '\x08'
  | 'f' => some '\x0c'
  | '"' => some '"'
  | '\\' => some '\\'
  | '/' => some '/'
  | _ => none

/-- The code units of a text up to its closing quote, and what follows the quote. -/
def units (done : List Nat) : List Char → Option (List Nat × List Char)
  | [] => none
  | '"' :: rest => some (done.reverse, rest)
  | '\\' :: 'u' :: a :: b :: c :: d :: rest =>
    match hexUnit? a b c d with
    | some u => units (u :: done) rest
    | none => none
  | '\\' :: c :: rest =>
    match escape? c with
    | some e => units (e.toNat :: done) rest
    | none => none
  | c :: rest => units (c.toNat :: done) rest

/-- Characters from code units: a high and a low surrogate make one character. -/
def characters : List Nat → List Char
  | [] => []
  | [u] => [Char.ofNat u]
  | u :: v :: rest =>
    if 0xd800 ≤ u && u < 0xdc00 && 0xdc00 ≤ v && v < 0xe000 then
      Char.ofNat (0x10000 + (u - 0xd800) * 0x400 + (v - 0xdc00)) :: characters rest
    else Char.ofNat u :: characters (v :: rest)

def text? (cs : List Char) : Option (String × List Char) :=
  (units [] cs).map fun (us, rest) => (String.ofList (characters us), rest)

def digits (cs : List Char) : List Char × List Char :=
  (cs.takeWhile fun c => '0' ≤ c && c ≤ '9', cs.dropWhile fun c => '0' ≤ c && c ≤ '9')

def magnitude (ds : List Char) : Nat := ds.foldl (fun n c => 10 * n + (c.toNat - 48)) 0

def exponent? : List Char → Option (Option Int × List Char)
  | c :: rest =>
    if c = 'e' || c = 'E' then
      let (negative, rest) := match rest with
        | '-' :: rest => (true, rest)
        | '+' :: rest => (false, rest)
        | rest => (false, rest)
      match digits rest with
      | ([], _) => none
      | (ds, rest) => some (some (if negative then -(magnitude ds : Int) else magnitude ds), rest)
    else some (none, c :: rest)
  | [] => some (none, [])

/-- A decimal with at least one place, from a mantissa, its places and an exponent. -/
def scaled (mantissa : Int) (places : Nat) (exponent : Int) : Json :=
  let p : Int := places - exponent
  if 1 ≤ p then decimal mantissa p.toNat else decimal (mantissa * powerOfTen (1 - p).toNat) 1

def number? (cs : List Char) : Option (Json × List Char) := do
  let (negative, cs) := match cs with
    | '-' :: cs => (true, cs)
    | cs => (false, cs)
  let sign : Int := if negative then -1 else 1
  match digits cs with
  | ([], _) => none
  | (whole, rest) =>
    match rest with
    | '.' :: rest =>
      match digits rest with
      | ([], _) => none
      | (fraction, rest) =>
        let (e, rest) ← exponent? rest
        pure (scaled (sign * magnitude (whole ++ fraction)) fraction.length (e.getD 0), rest)
    | rest =>
      let (e, rest) ← exponent? rest
      match e with
      | none => pure (int (sign * magnitude whole), rest)
      | some e => pure (scaled (sign * magnitude whole) 0 e, rest)

mutual

def value? : Nat → List Char → Option (Json × List Char)
  | 0, _ => none
  | fuel + 1, cs =>
    match skip cs with
    | '{' :: rest =>
      match skip rest with
      | '}' :: rest => some (obj [], rest)
      | rest => (members? fuel [] rest).map fun (ms, rest) => (obj (Members.distinct ms), rest)
    | '[' :: rest =>
      match skip rest with
      | ']' :: rest => some (arr [], rest)
      | rest => (items? fuel [] rest).map fun (vs, rest) => (arr vs, rest)
    | '"' :: rest => (text? rest).map fun (s, rest) => (str s, rest)
    | 'n' :: 'u' :: 'l' :: 'l' :: rest => some (null, rest)
    | 't' :: 'r' :: 'u' :: 'e' :: rest => some (bool true, rest)
    | 'f' :: 'a' :: 'l' :: 's' :: 'e' :: rest => some (bool false, rest)
    | rest => number? rest

def items? : Nat → List Json → List Char → Option (List Json × List Char)
  | 0, _, _ => none
  | fuel + 1, done, cs => do
    let (v, rest) ← value? fuel cs
    match skip rest with
    | ',' :: rest => items? fuel (v :: done) rest
    | ']' :: rest => some ((v :: done).reverse, rest)
    | _ => none

def members? : Nat → Members → List Char → Option (Members × List Char)
  | 0, _, _ => none
  | fuel + 1, done, cs =>
    match skip cs with
    | '"' :: rest => do
      let (name, rest) ← text? rest
      match skip rest with
      | ':' :: rest =>
        let (v, rest) ← value? fuel rest
        match skip rest with
        | ',' :: rest => members? fuel ((name, v) :: done) rest
        | '}' :: rest => some (((name, v) :: done).reverse, rest)
        | _ => none
      | _ => none
    | _ => none

end

end Reader

def ofText? (s : String) : Option Json :=
  let cs := s.toList
  match Reader.value? (2 * cs.length + 1) cs with
  | some (v, rest) => if (Reader.skip rest).isEmpty then some v else none
  | none => none

/-- The value of a data file: an empty file holds null. -/
def ofFile? (s : String) : Option Json :=
  if (Reader.skip s.toList).isEmpty then some null else ofText? s

end Vetting.Json
