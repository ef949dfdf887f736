import WorldMarkup.Text.Blank
import WorldMarkup.World.Tag

/-!
The names that an expression reads. An expression is divided into quoted literals, words and
single other characters; a word is a name unless it starts with a digit, is a keyword, or comes
after a point.
-/

set_option autoImplicit false
set_option relaxedAutoImplicit false

namespace WorldMarkup

namespace Expression

/-- Letters, digits, the underscore and the dollar sign, of ASCII only. -/
def isWordChar (c : Char) : Bool := c.isAlphanum || c == '_' || c == '$'

def isQuote (c : Char) : Bool := c == '"' || c == '\'' || c == '\x60'

/-- What follows a literal whose opening quote is behind: a backslash takes the next character
along, and a literal without an end takes everything. -/
def afterLiteral (quote : Char) : List Char → List Char
  | [] => []
  | c :: rest =>
    if c == '\\' then
      match rest with
      | [] => []
      | _ :: rest => afterLiteral quote rest
    else if c == quote then rest
    else afterLiteral quote rest

theorem length_afterLiteral_le (quote : Char) (cs : List Char) :
    (afterLiteral quote cs).length ≤ cs.length := by
  fun_induction afterLiteral quote cs <;> grind

/-- A part of an expression. -/
inductive Piece
  | literal (quote : Char)
  | word (chars : List Char)
  | other (c : Char)
  deriving DecidableEq

/-- Divide an expression from left to right. -/
def pieces (cs : List Char) : List Piece :=
  match cs with
  | [] => []
  | c :: rest =>
    if isQuote c then
      have := length_afterLiteral_le c rest
      .literal c :: pieces (afterLiteral c rest)
    else if isWordChar c then
      have := (List.dropWhile_sublist isWordChar (l := rest)).length_le
      .word (c :: rest.takeWhile isWordChar) :: pieces (rest.dropWhile isWordChar)
    else .other c :: pieces rest
termination_by cs.length

/-- Words that are values, not names. -/
def keywords : List String := ["true", "false", "null", "undefined"]

def isName (w : List Char) : Bool :=
  !(w.headD ' ').isDigit && !keywords.contains (String.ofList w)

/-- The names among the pieces; `afterPoint` tells whether the last character that is not blank
was a point. -/
def names (afterPoint : Bool) : List Piece → List String
  | [] => []
  | .literal _ :: rest => names false rest
  | .word w :: rest =>
    if !afterPoint && isName w then String.ofList w :: names false rest else names false rest
  | .other c :: rest => names (if Text.isBlank c then afterPoint else c == '.') rest

/-- The names that an expression reads, each once, in order of first appearance. -/
def identifiers (expression : String) : List String :=
  (names false (pieces expression.toList)).eraseDups

end Expression

mutual

def Node.assignDependencies (extract : String → List String) : Node Tag → Node Tag
  | ⟨t, e, cs⟩ =>
    ⟨match t with
      | .statement s => .statement { s with dependencies := extract s.condition }
      | .entity (.computed c) =>
        .entity (.computed { c with dependencies := extract c.expression })
      | t => t, e, Forest.assignDependencies extract cs⟩

def Forest.assignDependencies (extract : String → List String) : Forest Tag → Forest Tag
  | [] => []
  | n :: rest => n.assignDependencies extract :: Forest.assignDependencies extract rest

end

end WorldMarkup
