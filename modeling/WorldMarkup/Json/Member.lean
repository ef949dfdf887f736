import WorldMarkup.Json.Basic

/-!
Taking values out of JSON. A record is an object, or an array with its fields in order. A member
that is looked for may stand in its object only once; members that nobody looks for are passed
over, whatever they hold.
-/

set_option autoImplicit false
set_option relaxedAutoImplicit false

namespace WorldMarkup.Json

variable {α : Type}

def string? : Json → Option String
  | .string s => some s
  | _ => none

def bool? : Json → Option Bool
  | .bool b => some b
  | _ => none

/-- A natural number of 64 bits. -/
def nat? : Json → Option Nat
  | .int n => if 0 ≤ n ∧ n < UInt64.size then some n.toNat else none
  | _ => none

def int? : Json → Option Int64
  | .int n =>
    if -0x8000000000000000 ≤ n ∧ n < 0x8000000000000000 then some (Int64.ofInt n) else none
  | _ => none

def list? (item : Json → Option α) : Json → Option (List α)
  | .array items => items.mapM item
  | _ => none

def members? : Json → Option (List (String × Json))
  | .object members => some members
  | _ => none

/-- The fields of a record by name. An array gives them in the order of `names`, of which the last
ones may be missing; more items than names are refused. -/
def fields? (names : List String) : Json → Option (List (String × Json))
  | .object members => some members
  | .array items => if items.length ≤ names.length then some (names.zip items) else none
  | _ => none

/-- A choice among names: the name, or an object in which the name alone stands, with null. -/
def choice? : Json → Option String
  | .string name | .object [(name, .null)] => some name
  | _ => none

def need (members : List (String × Json)) (key : String) (read : Json → Option α) : Option α :=
  if atMostOne key members then (lookup key members).bind read else none

/-- A member that may be missing or null. -/
def maybe (members : List (String × Json)) (key : String) (read : Json → Option α) :
    Option (Option α) :=
  if atMostOne key members then
    match lookup key members with
    | none | some .null => some none
    | some v => (read v).map some
  else none

/-- A member that may be missing but not null. -/
def orElse (members : List (String × Json)) (key : String) (missing : α)
    (read : Json → Option α) : Option α :=
  if atMostOne key members then
    match lookup key members with
    | none => some missing
    | some v => read v
  else none

end WorldMarkup.Json
