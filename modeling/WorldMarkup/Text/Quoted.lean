import WorldMarkup.Text.Unseen

/-!
Strings as they stand in diagnostics: between double quotes, with escapes for quotes, for
backslashes and for characters that would not show.
-/

set_option autoImplicit false
set_option relaxedAutoImplicit false

namespace WorldMarkup.Text

/-- A character in a quoted text; `quote` is the quote around it. -/
def showChar (quote c : Char) : List Char :=
  if c == quote || c == '\\' then ['\\', c]
  else match c with
    | '\n' => ['\\', 'n']
    | '\r' => ['\\', 'r']
    | '\t' => ['\\', 't']
    | '\x00' => ['\\', '0']
    | c => if isUnseen c then
        ['\\', 'u', '\x7b'] ++ Nat.toDigits 16 c.toNat ++ ['\x7d']
      else [c]

def quoted (s : String) : String :=
  String.ofList ('"' :: (s.toList.flatMap (showChar '"') ++ ['"']))

def quotedChar (c : Char) : String := String.ofList ('\'' :: (showChar '\'' c ++ ['\'']))

end WorldMarkup.Text
