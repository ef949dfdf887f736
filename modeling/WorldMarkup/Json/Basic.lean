/-!
JSON values. The members of an object stay in the order in which they are written, repeated names
included. A number is an integer when it is written with digits alone and fits 64 bits; any other
is kept as it is written. What a text holds but nobody could use stays in the tree as a broken
value, so that it does harm only to those who look at it.
-/

set_option autoImplicit false
set_option relaxedAutoImplicit false

namespace WorldMarkup

inductive Json
  | null
  | bool (b : Bool)
  | int (n : Int)
  /-- A number that is not a whole one of 64 bits, written with a point or an exponent. -/
  | real (written : String)
  | string (s : String)
  | array (items : List Json)
  | object (members : List (String × Json))
  /-- What is well formed and yet stands for no value: half of a character, a number beyond the
  doubles, an object with a name of that sort, or an array or object that lies too deep. -/
  | broken
  deriving Inhabited

namespace Json

/-- What a name stands for in a list of members: the last member of that name. -/
def lookup (key : String) (members : List (String × Json)) : Option Json :=
  (members.reverse.find? (fun m => m.1 == key)).map Prod.snd

def atMostOne (key : String) (members : List (String × Json)) : Bool :=
  (members.filter (fun m => m.1 == key)).length ≤ 1

mutual

/-- Keep the last of the members of one name, at every level. -/
def lastWins : Json → Json
  | .array items => .array (lastWinsEach items)
  | .object members => .object (lastWinsMembers members)
  | v => v

def lastWinsEach : List Json → List Json
  | [] => []
  | v :: rest => v.lastWins :: lastWinsEach rest

def lastWinsMembers : List (String × Json) → List (String × Json)
  | [] => []
  | (key, v) :: rest =>
    let later := lastWinsMembers rest
    if later.any (fun m => m.1 == key) then later else (key, v.lastWins) :: later

end

mutual

def isSound : Json → Bool
  | .broken => false
  | .array items => areSound items
  | .object members => areSoundMembers members
  | _ => true

def areSound : List Json → Bool
  | [] => true
  | v :: rest => v.isSound && areSound rest

def areSoundMembers : List (String × Json) → Bool
  | [] => true
  | (_, v) :: rest => v.isSound && areSoundMembers rest

end

end Json

end WorldMarkup
