import WorldMarkup.Layout.Page
import WorldMarkup.Markup.Element
import WorldMarkup.World.Error

/-!
Candidate layouts. An element has up to three, from the least to the most spread out; its own are
built from those of its content, and the first one that fits the page is taken.
-/

set_option autoImplicit false
set_option relaxedAutoImplicit false

namespace WorldMarkup.Layout

open Markup

/-- How far a layout is spread out: on one line; with the content on lines of its own; and with
each property on a line of its own too. -/
inductive Mode
  | naive | nested | propertyNested
  deriving DecidableEq

namespace Mode

def all : List Mode := [.naive, .nested, .propertyNested]

def label : Mode → String
  | .naive => "Naive"
  | .nested => "Nested"
  | .propertyNested => "PropertyNested"

end Mode

/-- A layout. Lines after the first are indented from where the first one starts. -/
structure Candidate where
  mode : Mode
  output : List Char
  deriving DecidableEq

def Candidate.width (c : Candidate) : Nat := widest c.output

/-- Where no layout was to be had. -/
inductive Place
  | depth (n : Nat)
  | childOf (element : String)
  | element (name : String)
  | inline (element : String)
  deriving DecidableEq

def Place.describe : Place → String
  | .depth n => "depth " ++ toString n
  | .childOf name => "child of <" ++ name ++ ">"
  | .element name => "<" ++ name ++ ">"
  | .inline name => "inline <" ++ name ++ ">"

/-- Why a document cannot be printed. -/
inductive PrintError
  | noCandidates (place : Place)
  | tooDeep (limit : Nat)
  | document (e : DocumentError)
  deriving DecidableEq

def PrintError.message : PrintError → String
  | .noCandidates place => "Invariant violation: no layout candidates for " ++ place.describe
  | .tooDeep limit => "Maximum nesting depth (" ++ toString limit ++ ") exceeded"
  | .document e => e.message

/-- A part of an element's content: a child by its candidates, or a divider that stands as far
out as the element itself. -/
inductive Part
  | child (candidates : List Candidate)
  | divider (text : List Char)

/-- The first candidate that fits the budget, or else the last, with its place in the list. -/
def choose? (budget : Nat) (candidates : List Candidate) : Option (Candidate × Nat) :=
  let placed := candidates.zipIdx
  (placed.find? (fun c => c.1.width ≤ budget)).or placed.getLast?

/-- The first candidate that fits the page `depth` levels in, or else the last, with its place in
the list. -/
def choose (page : Page) (depth : Nat) (candidates : List Candidate) :
    Except PrintError (Candidate × Nat) :=
  match choose? (page.budget depth) candidates with
  | some c => .ok c
  | none => .error (.noCandidates (.depth depth))

/-- The first candidate that fits the page `depth` levels in, or else the last. -/
def collapse (page : Page) (depth : Nat) (candidates : List Candidate) :
    Except PrintError Candidate :=
  (choose page depth candidates).map Prod.fst

namespace Part

def naive? : Part → Option (List Char)
  | .child cs => (cs.find? (fun c => c.mode = .naive)).map Candidate.output
  | .divider text => some text

/-- The part on lines of its own, without property lines. -/
def nested? (page : Page) (depth : Nat) : Part → Option (List Char)
  | .child cs =>
    (choose? (page.budget (depth + 1)) (cs.filter (fun c => c.mode ≠ .propertyNested))).map
      (fun c => indentBlock c.1.output page.margin)
  | .divider text => some text

def spread (page : Page) (depth : Nat) : Part → Except PrintError (List Char)
  | .child cs => (collapse page (depth + 1) cs).map (fun c => indentBlock c.output page.margin)
  | .divider text => .ok text

def isWithoutCandidates : Part → Bool
  | .child cs => cs.isEmpty
  | .divider _ => false

end Part

def between (opening : List Char) (content : List (List Char)) (closing : List Char) :
    List Char :=
  opening ++ '\n' :: (unlines content ++ '\n' :: closing)

def renderEmpty (page : Page) (e : Element) : List Candidate :=
  ⟨.naive, e.selfClosing⟩ ::
    (if e.properties.isEmpty then []
      else [⟨.propertyNested, e.selfClosingBlock page.margin⟩])

/-- The candidates of an element with the given content, `depth` levels in. -/
def render (page : Page) (depth : Nat) (e : Element) (parts : List Part) :
    Except PrintError (List Candidate) :=
  if parts.isEmpty then .ok (renderEmpty page e)
  else if parts.any Part.isWithoutCandidates then .error (.noCandidates (.childOf e.name))
  else do
    let naive := (parts.mapM Part.naive?).map (fun content =>
      (⟨.naive, e.opening ++ content.flatten ++ e.closing⟩ : Candidate))
    let nested := (parts.mapM (Part.nested? page depth)).map (fun content =>
      (⟨.nested, between e.opening content e.closing⟩ : Candidate))
    let spread ←
      if e.properties.isEmpty then pure none
      else do
        let content ← parts.mapM (Part.spread page depth)
        pure (some (⟨.propertyNested,
          between (e.openingBlock page.margin) content e.closing⟩ : Candidate))
    match naive.toList ++ nested.toList ++ spread.toList with
    | [] => .error (.noCandidates (.element e.name))
    | candidates => .ok candidates

end WorldMarkup.Layout
