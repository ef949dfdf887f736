import WorldMarkup.Markup.Element
import WorldMarkup.Text.Blank

/-!
Wrapping running text. A line may end only at a single space with a character or a tag on both
sides, for the reader takes a line break back as one space; blanks at either end would be lost,
so content that starts or ends with one stays on its line.
-/

set_option autoImplicit false
set_option relaxedAutoImplicit false

namespace WorldMarkup.Layout

open Markup

/-- A part of running text: a character, or a tag already printed. -/
inductive Piece
  | char (c : Char)
  | atom (cs : List Char)
  deriving DecidableEq

namespace Piece

def written : Piece → List Char
  | .char c => escapeTextChar c
  | .atom cs => cs

def isBlank : Piece → Bool
  | .char c => Text.isBlank c
  | .atom _ => false

/-- Whether a line may end at this piece, given whether the piece before is a blank (or there is
none) and what comes after. -/
def isGap (afterBlank : Bool) (p : Piece) (rest : List Piece) : Bool :=
  p == .char ' ' && !afterBlank && (match rest with
    | [] => false
    | q :: _ => !q.isBlank)

end Piece

/-- Divide pieces at the gaps. There is always at least one chunk. -/
def chunksFrom (afterBlank : Bool) : List Piece → List (List Char)
  | [] => [[]]
  | p :: rest =>
    let chunks := chunksFrom p.isBlank rest
    if p.isGap afterBlank rest then [] :: chunks
    else match chunks with
      | [] => [p.written]
      | c :: cs => (p.written ++ c) :: cs

/-- The chunks of running text, none of which may be broken; nothing when the whole content has
to stay on one line. -/
def chunks? (ps : List Piece) : Option (List (List Char)) :=
  match ps.head?, ps.getLast? with
  | some first, some last =>
    if first.isBlank || last.isBlank then none else some (chunksFrom true ps)
  | _, _ => none

/-- Fill lines with as many chunks as fit; `line` is the current one. A chunk that fits nowhere
has a line of its own. -/
def fillFrom (budget : Nat) (line : List Char) : List (List Char) → List (List Char)
  | [] => if line.isEmpty then [] else [line]
  | c :: rest =>
    if line.isEmpty then fillFrom budget c rest
    else if line.length + 1 + c.length ≤ budget then fillFrom budget (line ++ ' ' :: c) rest
    else line :: fillFrom budget c rest

/-- Lines of chunks, each as full as the budget allows. -/
def fill (budget : Nat) (chunks : List (List Char)) : List (List Char) :=
  fillFrom budget [] chunks

end WorldMarkup.Layout
