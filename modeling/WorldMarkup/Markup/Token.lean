import WorldMarkup.Text.Quoted

/-!
Tokens of the written form, each with where it stands, and what can be wrong with a written
document.
-/

set_option autoImplicit false
set_option relaxedAutoImplicit false

namespace WorldMarkup.Markup

/-- The smallest parts of the written form. Between tags there are words, blanks and escapes;
inside a tag there are names, values and signs. -/
inductive Token
  | word (cs : List Char)
  | blank (cs : List Char)
  /-- An escaped character, already resolved. -/
  | escape (c : Char)
  | openTag
  | openClosing
  | name (cs : List Char)
  | equals
  /-- A value in parentheses, which are part of it. -/
  | key (cs : List Char)
  /-- A value in double quotes, which are part of it. -/
  | literal (cs : List Char)
  /-- What stands between two braces. -/
  | expression (cs : List Char)
  | tagEnd
  | selfClose
  deriving DecidableEq

namespace Token

def describe : Token → String
  | .word cs => "text '" ++ String.ofList cs ++ "'"
  | .blank _ => "whitespace"
  | .escape c => "escaped " ++ Text.quotedChar c
  | .openTag => "'<'"
  | .openClosing => "'</'"
  | .name cs => "name '" ++ String.ofList cs ++ "'"
  | .equals => "'='"
  | .key cs => "key " ++ String.ofList cs
  | .literal cs => "literal " ++ String.ofList cs
  | .expression cs => "expression \x7b" ++ String.ofList cs ++ "\x7d"
  | .tagEnd => "'>'"
  | .selfClose => "'/>'"

def endsTag : Token → Bool
  | .tagEnd | .selfClose => true
  | _ => false

def beginsTag : Token → Bool
  | .openTag | .openClosing => true
  | _ => false

/-- The characters of a text token, each with whether it was escaped. -/
def text? : Token → Option (List (Char × Bool))
  | .word cs | .blank cs => some (cs.map (fun c => (c, false)))
  | .escape c => some [(c, true)]
  | _ => none

end Token

/-- A token and the bytes it takes: from `start` up to, but without, `stop`. -/
structure Placed where
  token : Token
  start : Nat
  stop : Nat
  deriving DecidableEq

/-- What is wrong with a written document. Offsets count bytes. -/
inductive ReadError
  | unexpectedEnd
  | unexpectedChar (found : Char) (offset : Nat)
  | unexpectedToken (expected : String) (found : Token) (offset : Nat)
  | unknownElement (name : String) (offset : Nat)
  | mismatchedClose (expected found : String)
  | missingAttribute (element property : String)
  | invalidNumber (element value : String)
  | unexpectedText (offset : Nat)
  /-- A conditional holds something before its first branch. -/
  | orphanContent (offset : Nat)
  /-- A branch begins where no conditional is open. -/
  | strayBranch (name : String) (offset : Nat)
  | unclosed (name : String)
  | tooDeep (limit : Nat)
  deriving DecidableEq

def ReadError.message : ReadError → String
  | .unexpectedEnd => "Unexpected end of input"
  | .unexpectedChar found offset =>
    "Unexpected '" ++ found.toString ++ "' at offset " ++ toString offset
  | .unexpectedToken expected found offset =>
    "Expected " ++ expected ++ " but found " ++ found.describe ++ " at offset " ++ toString offset
  | .unknownElement name offset =>
    "Unknown element <" ++ name ++ "> at offset " ++ toString offset
  | .mismatchedClose expected found =>
    "Expected </" ++ expected ++ "> but found </" ++ found ++ ">"
  | .missingAttribute element property =>
    "<" ++ element ++ "> is missing attribute '" ++ property ++ "'"
  | .invalidNumber element value => "Invalid number '" ++ value ++ "' in <" ++ element ++ ">"
  | .unexpectedText offset => "Text is not allowed at offset " ++ toString offset
  | .orphanContent offset =>
    "Content before the first branch of <If> at offset " ++ toString offset
  | .strayBranch name offset => "<" ++ name ++ "> outside of <If> at offset " ++ toString offset
  | .unclosed name => "Unclosed <" ++ name ++ ">"
  | .tooDeep limit => "Maximum nesting depth (" ++ toString limit ++ ") exceeded"

end WorldMarkup.Markup
