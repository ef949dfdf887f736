import WorldMarkup.Json.Number

/-!
Reading JSON. Text is divided into marks, and the marks are put together on a stack of open
arrays and objects, so that the depth of nesting is the height of the stack. Only the form of the
text is judged; a part without a meaning becomes a broken value.
-/

set_option autoImplicit false
set_option relaxedAutoImplicit false

namespace WorldMarkup.Json

/-- A bracket, a separator, a string, or another value without parts. -/
inductive Mark
  | openArray | closeArray | openObject | closeObject | comma | colon
  /-- A string, if it is made of whole characters. -/
  | text (s : Option String)
  | atom (v : Json)

namespace Mark

def hexValue? (c : Char) : Option Nat :=
  if '0' ≤ c ∧ c ≤ '9' then some (c.toNat - '0'.toNat)
  else if 'a' ≤ c ∧ c ≤ 'f' then some (c.toNat - 'a'.toNat + 10)
  else if 'A' ≤ c ∧ c ≤ 'F' then some (c.toNat - 'A'.toNat + 10)
  else none

/-- Four digits in base sixteen. -/
def hexQuad? : List Char → Option Nat
  | [a, b, c, d] => do
    let a ← hexValue? a
    let b ← hexValue? b
    let c ← hexValue? c
    let d ← hexValue? d
    pure (((a * 16 + b) * 16 + c) * 16 + d)
  | _ => none

/-- The character of a pair of units, of which the second is written here. -/
def pair? (first : Nat) (cs : List Char) : Option Char :=
  match cs with
  | '\\' :: 'u' :: rest => do
    let second ← hexQuad? (rest.take 4)
    if first < 0xDC00 ∧ 0xDC00 ≤ second ∧ second < 0xE000 then
      some (Char.ofNat (0x10000 + (first - 0xD800) * 1024 + (second - 0xDC00)))
    else none
  | _ => none

/-- What follows a backslash: the character meant, and how many characters say so. Two units
that make a pair are one character; a unit of a pair on its own is half of one and means none. -/
def escape? (cs : List Char) : Option (Option Char × Nat) :=
  match cs with
  | '"' :: _ => some ('"', 1)
  | '\\' :: _ => some ('\\', 1)
  | '/' :: _ => some ('/', 1)
  | 'b' :: _ => some ('\x08', 1)
  | 'f' :: _ => some ('\x0c', 1)
  | 'n' :: _ => some ('\n', 1)
  | 'r' :: _ => some ('\r', 1)
  | 't' :: _ => some ('\t', 1)
  | 'u' :: rest => do
    let unit ← hexQuad? (rest.take 4)
    if unit < 0xD800 ∨ 0xE000 ≤ unit then some (Char.ofNat unit, 5)
    else match pair? unit (rest.drop 4) with
      | some c => some (c, 11)
      | none => some (none, 5)
  | _ => none

/-- The rest of a string whose opening quote is behind, and what comes after it. The characters
read so far stand newest first, unless one of them was half a character. -/
def stringRest (read : Option (List Char)) (cs : List Char) :
    Option (Option String × List Char) :=
  match cs with
  | [] => none
  | '"' :: rest => some (read.map (fun r => String.ofList r.reverse), rest)
  | '\\' :: rest =>
    match escape? rest with
    | none => none
    | some (c, n) =>
      stringRest (read.bind (fun r => c.map (· :: r))) (rest.drop n)
  | c :: rest => if c.toNat < 32 then none else stringRest (read.map (c :: ·)) rest
termination_by cs.length
decreasing_by all_goals simp +arith

def isSpace (c : Char) : Bool := c == ' ' || c == '\t' || c == '\n' || c == '\r'

/-- Divide a text into marks, the last mark first. At most `fuel` steps are taken; as each step
takes a character, the length of the text is enough. -/
def divide (fuel : Nat) (done : List Mark) (cs : List Char) : Option (List Mark) :=
  match fuel, cs with
  | _, [] => some done
  | 0, _ => none
  | fuel + 1, c :: rest =>
    if isSpace c then divide fuel done rest
    else match c with
      | '[' => divide fuel (.openArray :: done) rest
      | ']' => divide fuel (.closeArray :: done) rest
      | '\x7b' => divide fuel (.openObject :: done) rest
      | '\x7d' => divide fuel (.closeObject :: done) rest
      | ',' => divide fuel (.comma :: done) rest
      | ':' => divide fuel (.colon :: done) rest
      | '"' =>
        match stringRest (some []) rest with
        | some (s, rest) => divide fuel (.text s :: done) rest
        | none => none
      | _ =>
        if c == '-' || c.isDigit then
          match number? cs with
          | some (v, rest) => divide fuel (.atom v :: done) rest
          | none => none
        else if "null".toList.isPrefixOf cs then divide fuel (.atom .null :: done) (cs.drop 4)
        else if "true".toList.isPrefixOf cs then
          divide fuel (.atom (.bool true) :: done) (cs.drop 4)
        else if "false".toList.isPrefixOf cs then
          divide fuel (.atom (.bool false) :: done) (cs.drop 5)
        else none

end Mark

def marks? (text : String) : Option (List Mark) :=
  let cs := text.toList
  (Mark.divide cs.length [] cs).map List.reverse

/-- Members with their names, as far as the names are made of whole characters. -/
abbrev Written : Type := List (Option String × Json)

def objectOf (members : Written) : Json :=
  match members.mapM (fun m => m.1.map (fun key => (key, m.2))) with
  | some members => .object members
  | none => .broken

/-- An array or object still open, with what it holds so far, newest first. -/
inductive Frame
  | items (done : List Json)
  | members (done : Written) (key : Option String)

/-- What may come next. -/
inductive Awaiting
  | value
  /-- A value, or the end of an array that has just been opened. -/
  | firstItem
  /-- A name, or the end of an object that has just been opened. -/
  | firstName
  | name (done : Written)
  | colon (done : Written) (key : Option String)
  /-- The value is complete. -/
  | nothing (v : Json)

/-- An array or object that is closed, with what stood around it; it is broken when `limit` of
them were open already. -/
def closed (limit : Option Nat) (around : List Frame) (v : Json) : List Frame × Awaiting :=
  let tooDeep := match limit with
    | none => false
    | some n => n ≤ (around.take n).length
  (around, .nothing (if tooDeep then .broken else v))

/-- Take one mark in. -/
def absorb (limit : Option Nat) :
    List Frame × Awaiting → Mark → Option (List Frame × Awaiting)
  | (stack, awaiting), mark =>
    match awaiting, mark with
    | .value, .atom v | .firstItem, .atom v => some (stack, .nothing v)
    | .value, .text s | .firstItem, .text s =>
      some (stack, .nothing ((s.map Json.string).getD .broken))
    | .value, .openArray | .firstItem, .openArray => some (.items [] :: stack, .firstItem)
    | .value, .openObject | .firstItem, .openObject => some (.members [] "" :: stack, .firstName)
    | .firstItem, .closeArray =>
      match stack with
      | .items _ :: around => some (closed limit around (.array []))
      | _ => none
    | .firstName, .closeObject =>
      match stack with
      | .members .. :: around => some (closed limit around (.object []))
      | _ => none
    | .firstName, .text key =>
      match stack with
      | .members .. :: around => some (around, .colon [] key)
      | _ => none
    | .name done, .text key => some (stack, .colon done key)
    | .colon done key, .colon => some (.members done key :: stack, .value)
    | .nothing v, .comma =>
      match stack with
      | .items done :: around => some (.items (v :: done) :: around, .value)
      | .members done key :: around => some (around, .name ((key, v) :: done))
      | [] => none
    | .nothing v, .closeArray =>
      match stack with
      | .items done :: around => some (closed limit around (.array (v :: done).reverse))
      | _ => none
    | .nothing v, .closeObject =>
      match stack with
      | .members done key :: around =>
        some (closed limit around (objectOf ((key, v) :: done).reverse))
      | _ => none
    | _, _ => none

/-- Read a text that is one JSON value, in which no more than `limit` arrays and objects are
within each other. -/
def read? (limit : Option Nat) (text : String) : Option Json :=
  match marks? text with
  | none => none
  | some ms =>
    match ms.foldlM (absorb limit) ([], .value) with
    | some ([], .nothing v) => some v
    | _ => none

/-- Read a text that is one JSON value without a broken part. -/
def readSound? (text : String) : Option Json := (read? none text).filter isSound

end WorldMarkup.Json
