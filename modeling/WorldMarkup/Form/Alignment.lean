import WorldMarkup.Form.Error
import WorldMarkup.Text.Blank
import WorldMarkup.World.Identity

/-!
How the content that an edit names lines up with the content it follows. Both are taken apart
into paths, which are matched one by one, first from the start and then from the end. Matched
paths are alike but for the innermost pair, where one text may go on beyond the other.
-/

set_option autoImplicit false
set_option relaxedAutoImplicit false

namespace WorldMarkup

/-- The end at which two sides were matched. -/
inductive Boundary
  | start | finish
  deriving DecidableEq

/-- How two sides compare. -/
inductive Comparison
  | equal
  /-- The base goes on beyond the edit. -/
  | baseLonger (remainder : Forest Tag) (boundary : Boundary)
  /-- The edit goes on beyond the base. -/
  | editLonger (remainder : Forest Tag) (boundary : Boundary)
  | conflict
  deriving DecidableEq

namespace Alignment

/-- What is left of a pair of paths. -/
inductive Overlap
  | same
  | firstLonger (excess : List Char)
  | secondLonger (excess : List Char)
  deriving DecidableEq

def samePath (a b : Path Tag) : Bool := a.map Step.data == b.map Step.data

/-- What is left of `long` when `short` is taken off its front. -/
def leftOver? : List Char → List Char → Option (List Char)
  | long, [] => some long
  | [], _ :: _ => none
  | c :: long, d :: short => if c == d then leftOver? long short else none

/-- What is left of `long` when `short` is taken off at the boundary. -/
def excess? (boundary : Boundary) (long short : List Char) : Option (List Char) :=
  match boundary with
  | .start => leftOver? long short
  | .finish => (leftOver? long.reverse short.reverse).map List.reverse

/-- Match the innermost pair of paths, whose texts may differ in length. -/
def overlap? (boundary : Boundary) (a b : Path Tag) : Option Overlap :=
  if samePath a b then some .same
  else if samePath a.dropLast b.dropLast then
    match a.getLast?.bind (fun s => s.data.text?), b.getLast?.bind (fun s => s.data.text?) with
    | some s, some t =>
      ((excess? boundary s.toList t.toList).map .firstLonger).or
        ((excess? boundary t.toList s.toList).map .secondLonger)
    | _, _ => none
  else none

/-- Two lists of paths matched from the front: the overlap of the innermost pair, with that pair,
and what each list goes on with. -/
structure Match where
  overlap : Overlap := .same
  pair : Path Tag × Path Tag := ([], [])
  firstRest : List (Path Tag)
  secondRest : List (Path Tag)

/-- Match two lists of paths from the front. All pairs but the last have to be alike. -/
def matchFront (boundary : Boundary) : List (Path Tag) → List (Path Tag) → Option Match
  | a :: as, b :: bs =>
    if as.isEmpty || bs.isEmpty then
      (overlap? boundary a b).map (fun o => ⟨o, (a, b), as, bs⟩)
    else if samePath a b then matchFront boundary as bs
    else none
  | as, bs => some { firstRest := as, secondRest := bs }

def freshNumber (side : List (Path Tag)) : Nat :=
  (side.flatMap (fun p => p.map (fun s => s.origin + 1))).foldl max 0

/-- Put leaves below the ancestors of a path, numbered from `number` on. -/
def withLeaves (ancestors : Path Tag) (number : Nat) : List (Tag × Extra) → List (Path Tag)
  | [] => []
  | (t, e) :: rest => (ancestors ++ [⟨t, e, number⟩]) :: withLeaves ancestors (number + 1) rest

/-- The excess of a text as leaves: blanks at its ends become spaces of their own. -/
def excessLeaves (e : Extra) (excess : List Char) : List (Tag × Extra) :=
  let trimmed := Text.trimList excess
  let spaceIf (b : Bool) : List (Tag × Extra) := if b then [(.space, {})] else []
  spaceIf (excess.head?.any Text.isBlank) ++
    (if trimmed.isEmpty then []
    else (.text (String.ofList trimmed), e) :: spaceIf (excess.getLast?.any Text.isBlank))

/-- The paths of the excess of the text at the end of `path`; `side` is the list it is from. -/
def excessPaths (path : Path Tag) (excess : List Char) (side : List (Path Tag)) :
    List (Path Tag) :=
  match path.getLast? with
  | none => []
  | some leaf => withLeaves path.dropLast (freshNumber side) (excessLeaves leaf.extra excess)

/-- What each side goes on with beyond the other, when they match at the boundary. -/
def remainders? (boundary : Boundary) (base edit : List (Path Tag)) :
    Option (List (Path Tag) × List (Path Tag)) :=
  let toward (ps : List (Path Tag)) : List (Path Tag) := match boundary with
    | .start => ps
    | .finish => ps.reverse
  let joined (excess rest : List (Path Tag)) : List (Path Tag) := match boundary with
    | .start => excess ++ rest
    | .finish => rest.reverse ++ excess
  (matchFront boundary (toward base) (toward edit)).map (fun m =>
    match m.overlap with
    | .same => (joined [] m.firstRest, joined [] m.secondRest)
    | .firstLonger x => (joined (excessPaths m.pair.1 x base) m.firstRest, joined [] m.secondRest)
    | .secondLonger x =>
      (joined [] m.firstRest, joined (excessPaths m.pair.2 x edit) m.secondRest))

def regrow (paths : List (Path Tag)) : Except FormError (Forest Tag) :=
  match Outline.ofPaths worldRules paths with
  | .ok o => .ok o.forest
  | .error e => .error (.tree e)

/-- Compare at one boundary; nothing when the sides do not match there. -/
def compareAt? (boundary : Boundary) (base edit : List (Path Tag)) :
    Option (Except FormError Comparison) :=
  match remainders? boundary base edit with
  | none => none
  | some (b, e) =>
    match b.isEmpty, e.isEmpty with
    | true, true => some (.ok .equal)
    | false, true => some ((regrow b).map (.baseLonger · boundary))
    | true, false => some ((regrow e).map (.editLonger · boundary))
    | false, false => none

end Alignment

/-- The paths of a world document, unless it has a fault. -/
def Forest.worldPaths (t : Forest Tag) : Except FormError (List (Path Tag)) :=
  match WorldOutline.ofForest t with
  | .ok o => .ok o.paths
  | .error e => .error (.tree e)

/-- Compare the content that an edit names with the content it follows. -/
def compareEdits (base edit : Forest Tag) : Except FormError Comparison := do
  let b ← Forest.worldPaths base
  let e ← Forest.worldPaths edit
  ((Alignment.compareAt? .start b e).or (Alignment.compareAt? .finish b e)).getD (.ok .conflict)

end WorldMarkup
