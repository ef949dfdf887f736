import WorldMarkup.Layout.Candidate
import WorldMarkup.Layout.Wrap

/-!
Printing documents. Each root is laid out for the page and stands on lines of its own. Fields and
links hold running text, which is wrapped; a conditional shows its first condition in its opening
tag, and the later branches as dividers.
-/

set_option autoImplicit false
set_option relaxedAutoImplicit false

namespace WorldMarkup.Layout

open Markup

/-- Where a node is printed: on lines of its own, or within running text. -/
inductive Position
  | block | running
  deriving DecidableEq

/-- The tag that stands where a later branch begins. -/
def branchDivider : Tag → Except PrintError (List Char)
  | .statement s => .ok (Element.selfClosing ⟨"ElseIf", [.condition s.condition]⟩)
  | .fallthrough => .ok (Element.selfClosing ⟨"Else", []⟩)
  | t => .error (.document (.strangerUnderConditional t.label))

/-- The opening tag of a conditional: the condition of its first branch, and its name. -/
def conditionalElement (e : Extra) (branches : Forest Tag) : Element :=
  ⟨"If", (match branches with
    | ⟨.statement s, _, _⟩ :: _ => [.condition s.condition]
    | _ => []) ++ e.properties⟩

/-- The divider in front of a branch. The first statement has none, as its condition stands in
the opening tag. -/
def dividers (first : Bool) (t : Tag) : Except PrintError (List Part) :=
  match first, t with
  | true, .statement _ => .ok []
  | _, t => (branchDivider t).map (fun d => [.divider d])

/-- The candidates of a field or a link with content: on one line, or wrapped one level in. -/
def runningCandidates (page : Page) (depth : Nat) (e : Element) (pieces : List Piece) :
    List Candidate :=
  ⟨.naive, e.opening ++ pieces.flatMap Piece.written ++ e.closing⟩ ::
    match chunks? pieces with
    | none => []
    | some chunks =>
      let ls := fill (page.budget (depth + 1)) chunks
      [⟨.nested, between e.opening [indentBlock (unlines ls) page.margin] e.closing⟩]

/-- Of a node within running text only the layout on one line counts. -/
def keepNaive (t : Tag) (candidates : List Candidate) : Except PrintError (List Candidate) :=
  match candidates.find? (fun c => c.mode = .naive) with
  | some c => .ok [c]
  | none => .error (.noCandidates (.inline t.label))

def atomOf (candidates : List Candidate) : Piece :=
  .atom ((candidates.head?.map Candidate.output).getD [])

mutual

/-- The candidates of a node, `depth` levels in. -/
def layouts (page : Page) (position : Position) (depth : Nat) :
    Node Tag → Except PrintError (List Candidate)
  | ⟨t, e, cs⟩ =>
    if maxDepth < depth then .error (.tooDeep maxDepth)
    else match t with
      | .text value => .ok [⟨.naive, escapeText value.toList⟩]
      | t =>
        if position = .block && t.isRunning then
          if cs.isEmpty then .ok (renderEmpty page (.ofNode ⟨t, e, []⟩))
          else do
            let pieces ← runningPieces page (depth + 1) cs
            pure (runningCandidates page depth (.ofNode ⟨t, e, []⟩) pieces)
        else do
          let candidates ←
            if t = .conditional then do
              render page depth (conditionalElement e cs)
                (← branchParts page position (depth + 1) true cs)
            else do
              render page depth (.ofNode ⟨t, e, []⟩)
                (← childParts page position (depth + 1) cs)
          if position = .running then keepNaive t candidates else pure candidates

def childParts (page : Page) (position : Position) (depth : Nat) :
    Forest Tag → Except PrintError (List Part)
  | [] => .ok []
  | n :: rest => do
    let candidates ← layouts page position depth n
    let parts ← childParts page position depth rest
    pure (.child candidates :: parts)

def branchParts (page : Page) (position : Position) (depth : Nat) (first : Bool) :
    Forest Tag → Except PrintError (List Part)
  | [] => .ok []
  | ⟨t, _, cs⟩ :: rest => do
    let divider ← dividers first t
    let content ← childParts page position depth cs
    let parts ← branchParts page position depth false rest
    pure (divider ++ content ++ parts)

def runningPieces (page : Page) (depth : Nat) : Forest Tag → Except PrintError (List Piece)
  | [] => .ok []
  | ⟨.text value, _, _⟩ :: rest => do
    let pieces ← runningPieces page depth rest
    pure (value.toList.map Piece.char ++ pieces)
  | n :: rest => do
    let candidates ← layouts page .running depth n
    let pieces ← runningPieces page depth rest
    pure (atomOf candidates :: pieces)

end

def printRoot (page : Page) (n : Node Tag) : Except PrintError (List Char) := do
  let chosen ← collapse page 0 (← layouts page .block 0 n)
  pure (chosen.output ++ ['\n'])

def printList (page : Page) : Forest Tag → Except PrintError (List Char)
  | [] => .ok []
  | n :: rest => do
    let first ← printRoot page n
    let others ← printList page rest
    pure (first ++ others)

def print (page : Page) (t : Forest Tag) : Except PrintError String :=
  (printList page t).map String.ofList

end WorldMarkup.Layout
