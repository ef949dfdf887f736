import WorldMarkup.Markup.Token

/-!
Scanning a written document into tokens. Text between tags and the inside of a tag scan
differently: a sign that begins a tag leads inside, the end of the tag leads out again. Each scan
of a token says how many characters after the first it takes, so that the rest grows shorter.
-/

set_option autoImplicit false
set_option relaxedAutoImplicit false

namespace WorldMarkup.Markup

def isLayoutBlank (c : Char) : Bool := c == ' ' || c == '\t' || c == '\r' || c == '\n'

/-- Characters of a word: all but blanks, backslashes and the sign that begins a tag. -/
def isWordChar (c : Char) : Bool := !isLayoutBlank c && c != '<' && c != '\\'

def isNameStart (c : Char) : Bool := c.isAlpha || c == '_'

def isNameChar (c : Char) : Bool := c.isAlphanum || c == '_'

/-- How far a value reaches up to and with its closing delimiter. A backslash takes the next
character along, unless that ends the line. -/
def delimitedLength? (close : Char) : List Char → Option Nat
  | [] => none
  | c :: rest =>
    if c == '\\' then
      match rest with
      | [] => none
      | d :: rest => if d == '\n' then none else (delimitedLength? close rest).map (· + 2)
    else if c == close then some 1
    else (delimitedLength? close rest).map (· + 1)

/-- Where a scan through an expression stands: how many braces are open, which quote is, and
whether the next character of a literal is taken as it is. -/
structure BraceScan where
  depth : Nat := 1
  quote : Option Char := none
  escaped : Bool := false
  deriving DecidableEq

/-- Go over one character of an expression. Braces in literals do not count. -/
def BraceScan.step (s : BraceScan) (c : Char) : BraceScan :=
  match s.quote with
  | some q =>
    if s.escaped then { s with escaped := false }
    else if c == '\\' then { s with escaped := true }
    else if c == q then { s with quote := none }
    else s
  | none =>
    if c == '"' || c == '\'' || c == '\x60' then { s with quote := some c }
    else if c == '\x7b' then { s with depth := s.depth + 1 }
    else if c == '\x7d' then { s with depth := s.depth - 1 }
    else s

/-- How far an expression reaches up to and with the brace that closes the first one. -/
def expressionLength? (s : BraceScan) : List Char → Option Nat
  | [] => none
  | c :: rest =>
    let s := s.step c
    if s.depth = 0 then some 1 else (expressionLength? s rest).map (· + 1)

/-- The token of a text that starts with `c`, and how many more characters it takes. -/
def textToken (c : Char) (rest : List Char) : Token × Nat :=
  if c == '<' then
    if rest.head? = some '/' then (.openClosing, 1) else (.openTag, 0)
  else if c == '\\' then
    match rest with
    | 'n' :: _ => (.escape '\n', 1)
    | '\\' :: _ => (.escape '\\', 1)
    | '<' :: _ => (.escape '<', 1)
    | '>' :: _ => (.escape '>', 1)
    | _ => (.word ['\\'], 0)
  else if isLayoutBlank c then
    let more := rest.takeWhile isLayoutBlank
    (.blank (c :: more), more.length)
  else
    let more := rest.takeWhile isWordChar
    (.word (c :: more), more.length)

/-- The token inside a tag that starts with `c`, and how many more characters it takes. -/
def tagToken? (c : Char) (rest : List Char) : Option (Token × Nat) :=
  if isNameStart c then
    let more := rest.takeWhile isNameChar
    some (.name (c :: more), more.length)
  else match c with
    | '=' => some (.equals, 0)
    | '>' => some (.tagEnd, 0)
    | '/' => if rest.head? = some '>' then some (.selfClose, 1) else none
    | '(' => (delimitedLength? ')' rest).map (fun n => (.key (c :: rest.take n), n))
    | '"' => (delimitedLength? '"' rest).map (fun n => (.literal (c :: rest.take n), n))
    | '\x7b' =>
      (expressionLength? {} rest).map (fun n => (.expression (rest.take (n - 1)), n))
    | _ => none

def byteLength : List Char → Nat
  | [] => 0
  | c :: cs => c.utf8Size + byteLength cs

/-- Scan from `offset` on, inside a tag or between tags. -/
def scanFrom (inside : Bool) (offset : Nat) (cs : List Char) : Except ReadError (List Placed) :=
  match cs with
  | [] => if inside then .error .unexpectedEnd else .ok []
  | c :: rest =>
    if inside then
      if isLayoutBlank c then scanFrom true (offset + 1) rest
      else match tagToken? c rest with
        | none => .error (.unexpectedChar c offset)
        | some (token, n) =>
          let stop := offset + byteLength (c :: rest.take n)
          (scanFrom (!token.endsTag) stop (rest.drop n)).map (⟨token, offset, stop⟩ :: ·)
    else
      let (token, n) := textToken c rest
      let stop := offset + byteLength (c :: rest.take n)
      (scanFrom token.beginsTag stop (rest.drop n)).map (⟨token, offset, stop⟩ :: ·)
termination_by cs.length
decreasing_by all_goals simp +arith

def scan (source : String) : Except ReadError (List Placed) := scanFrom false 0 source.toList

end WorldMarkup.Markup
