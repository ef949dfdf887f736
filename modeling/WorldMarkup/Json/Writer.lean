import WorldMarkup.Json.Basic

/-!
JSON values in writing: on one line without blanks, or over several lines with two blanks for
each level. A broken value, which stands for none, is written as null.
-/

set_option autoImplicit false
set_option relaxedAutoImplicit false

namespace WorldMarkup.Json

def hexDigit (n : Nat) : Char := "0123456789abcdef".toList.getD (n % 16) '0'

def escapeChar (c : Char) : List Char :=
  match c with
  | '"' => ['\\', '"']
  | '\\' => ['\\', '\\']
  | '\n' => ['\\', 'n']
  | '\r' => ['\\', 'r']
  | '\t' => ['\\', 't']
  | '\x08' => ['\\', 'b']
  | '\x0c' => ['\\', 'f']
  | c => if c.toNat < 32 then
      ['\\', 'u', '0', '0', hexDigit (c.toNat / 16), hexDigit c.toNat]
    else [c]

def quote (s : String) : String :=
  String.ofList ('"' :: (s.toList.flatMap escapeChar ++ ['"']))

mutual

def compact : Json → String
  | .null | .broken => "null"
  | .bool b => if b then "true" else "false"
  | .int n => toString n
  | .real written => written
  | .string s => quote s
  | .array items => "[" ++ ",".intercalate (compactEach items) ++ "]"
  | .object members => "\x7b" ++ ",".intercalate (compactMembers members) ++ "\x7d"

def compactEach : List Json → List String
  | [] => []
  | v :: rest => v.compact :: compactEach rest

def compactMembers : List (String × Json) → List String
  | [] => []
  | (key, v) :: rest => (quote key ++ ":" ++ v.compact) :: compactMembers rest

end

/-- Items between brackets, each on a line of its own. -/
def block (opening closing margin : String) (items : List String) : String :=
  if items.isEmpty then opening ++ closing
  else opening ++ "\n" ++ ",\n".intercalate (items.map (fun i => margin ++ "  " ++ i)) ++ "\n" ++
    margin ++ closing

mutual

/-- The value over several lines, the later ones behind a margin. -/
def prettyAfter (margin : String) : Json → String
  | .array items => block "[" "]" margin (prettyEach (margin ++ "  ") items)
  | .object members => block "\x7b" "\x7d" margin (prettyMembers (margin ++ "  ") members)
  | v => v.compact

def prettyEach (margin : String) : List Json → List String
  | [] => []
  | v :: rest => v.prettyAfter margin :: prettyEach margin rest

def prettyMembers (margin : String) : List (String × Json) → List String
  | [] => []
  | (key, v) :: rest =>
    (quote key ++ ": " ++ v.prettyAfter margin) :: prettyMembers margin rest

end

def pretty (v : Json) : String := v.prettyAfter ""

end WorldMarkup.Json
