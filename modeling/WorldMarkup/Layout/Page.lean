/-!
The measures of a printed page, and text as lines.
-/

set_option autoImplicit false
set_option relaxedAutoImplicit false

namespace WorldMarkup.Layout

/-- How wide lines may be, indentation included, and what one level of indentation is. -/
structure Page where
  width : Nat := 80
  indent : String := "  "
  deriving DecidableEq

namespace Page

def margin (p : Page) : List Char := p.indent.toList

/-- The width left for a node whose first line starts `depth` levels in. -/
def budget (p : Page) (depth : Nat) : Nat := p.width - depth * p.margin.length

end Page

/-- The lines of a text; `line` holds what has been read of the current one, newest first. A line
ends at a line feed, which takes a carriage return before it along, and a last line without
characters does not count. -/
def linesFrom (line : List Char) : List Char → List (List Char)
  | [] => if line.isEmpty then [] else [line.reverse]
  | c :: rest =>
    if c == '\n' then
      (match line with
        | '\r' :: line => line.reverse
        | line => line.reverse) :: linesFrom [] rest
    else linesFrom (c :: line) rest

def lines (text : List Char) : List (List Char) := linesFrom [] text

def unlines (ls : List (List Char)) : List Char := ['\n'].intercalate ls

/-- Put a margin in front of every line that has characters. -/
def indentBlock (block margin : List Char) : List Char :=
  unlines ((lines block).map (fun l => if l.isEmpty then [] else margin ++ l))

def widest (text : List Char) : Nat := ((lines text).map List.length).foldl max 0

end WorldMarkup.Layout
