/-! Document values whose objects keep the order in which their members were
written. Data files hold any shape, so readers decide what a value is good for. -/

namespace Vetting

/-- A document value. A decimal is its mantissa divided by a power of ten. -/
inductive Json where
  | null
  | bool (value : Bool)
  | int (value : Int)
  | decimal (mantissa : Int) (places : Nat)
  | str (text : String)
  | arr (items : List Json)
  | obj (members : List (String × Json))
deriving Inhabited

namespace Json

abbrev Members := List (String × Json)

/-- Put a member: a name that is already there keeps its place and takes the new value. -/
def Members.put (name : String) (value : Json) : Members → Members
  | [] => [(name, value)]
  | (n, v) :: rest => if n = name then (n, value) :: rest else (n, v) :: put name value rest

/-- Members under distinct names: of those with one name the last value, at the first place. -/
def Members.distinct (members : Members) : Members :=
  members.foldl (fun kept m => put m.1 m.2 kept) []

/-- Whether a value counts as given: not null, false, zero or empty. -/
def isGiven : Json → Bool
  | null => false
  | bool b => b
  | int n => n ≠ 0
  | decimal m _ => m ≠ 0
  | str s => s ≠ ""
  | arr items => !items.isEmpty
  | obj members => !members.isEmpty

/-- The value, or another one where it does not count as given. -/
def orElse (value other : Json) : Json := if value.isGiven then value else other

def powerOfTen : Nat → Int
  | 0 => 1
  | n + 1 => 10 * powerOfTen n

/-- The number that a value stands for, as mantissa and decimal places; a Boolean is 0 or 1. -/
def numeric? : Json → Option (Int × Nat)
  | bool b => some (if b then 1 else 0, 0)
  | int n => some (n, 0)
  | decimal m p => some (m, p)
  | _ => none

def sameNumber (a b : Json) : Bool :=
  match a.numeric?, b.numeric? with
  | some (m, p), some (n, q) => m * powerOfTen q == n * powerOfTen p
  | _, _ => false

/-- Whether a value counts for less than another one; what is no number counts for zero. -/
def countsLess (a b : Json) : Bool :=
  let (m, p) := a.numeric?.getD (0, 0)
  let (n, q) := b.numeric?.getD (0, 0)
  decide (m * powerOfTen q < n * powerOfTen p)

mutual

/-- Equality of what is meant: numbers by value, objects whatever the order of their members. -/
def agrees : Json → Json → Bool
  | null, null => true
  | str s, str t => s == t
  | arr xs, arr ys => agreesAll xs ys
  | obj ms, obj ns => ms.length == ns.length && agreesWithin ms ns
  | a, b => sameNumber a b

def agreesAll : List Json → List Json → Bool
  | [], [] => true
  | x :: xs, y :: ys => agrees x y && agreesAll xs ys
  | _, _ => false

def agreesWithin : List (String × Json) → List (String × Json) → Bool
  | [], _ => true
  | (name, x) :: rest, ns =>
    (match ns.lookup name with
      | some y => agrees x y
      | none => false) && agreesWithin rest ns

end

/-- Insert a member before the first one with a greater name. -/
def place (name : String) (value : Json) : List (String × Json) → List (String × Json)
  | [] => [(name, value)]
  | (n, v) :: rest =>
    if n < name then (n, v) :: place name value rest else (name, value) :: (n, v) :: rest

mutual

/-- The value with the members of every object sorted by name. -/
def sortMembers : Json → Json
  | arr items => arr (sortItems items)
  | obj members => obj (sortEach members)
  | v => v

def sortItems : List Json → List Json
  | [] => []
  | v :: rest => sortMembers v :: sortItems rest

def sortEach : List (String × Json) → List (String × Json)
  | [] => []
  | (name, v) :: rest => place name (sortMembers v) (sortEach rest)

end

end Json

end Vetting
