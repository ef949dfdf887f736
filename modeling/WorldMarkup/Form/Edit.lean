import WorldMarkup.Form.Alignment
import WorldMarkup.World.TextRun

/-!
Resolving edits against the content they follow. An edit speaks of the run of inline siblings
right before it, or else of the one sibling before it. The edits after one target are taken
together, and what comes of them is the content that is left, a removal, a replacement, or
nothing.
-/

set_option autoImplicit false
set_option relaxedAutoImplicit false

namespace WorldMarkup

namespace Edit

def isEdit (n : Node Tag) : Bool := n.data.category = .edit

def isInline (n : Node Tag) : Bool := n.data.category = .inline

/-- An edit by its halves: the content it names, and what is to stand there. -/
structure Halves where
  target : Forest Tag
  payload : Forest Tag
  isRemoval : Bool

/-- The halves of a replacement; the last of each sort counts. -/
def replaceHalves (target payload : Option (Forest Tag)) :
    Forest Tag → Except FormError Halves
  | [] =>
    match target with
    | some t => .ok ⟨t, payload.getD [], false⟩
    | none => .error (.malformedEdit .withoutMatch)
  | half :: rest =>
    match half.data with
    | .replaceMatch => replaceHalves (some half.children) payload rest
    | .replacePayload => replaceHalves target (some half.children) rest
    | t => .error (.malformedEdit (.strangerInReplace t.label))

/-- The halves of an edit; whatever is no replacement removes what it holds. -/
def halves (n : Node Tag) : Except FormError Halves :=
  if n.data = .replace then replaceHalves none none n.children
  else .ok ⟨n.children, [], true⟩

mutual

def summarizeNode : Node Tag → String
  | ⟨.text value, _, cs⟩ => value ++ summarize cs
  | ⟨.space, _, cs⟩ => " " ++ summarize cs
  | ⟨t, _, cs⟩ => (if cs.isEmpty then "<" ++ t.label ++ " />" else "") ++ summarize cs

def summarize : Forest Tag → String
  | [] => ""
  | n :: rest => summarizeNode n ++ summarize rest

end

/-- What edits have made of their target so far: what stands there, and what of content further
back is to be removed. -/
structure Slot where
  add : Forest Tag
  remove : Forest Tag := []

namespace Slot

/-- A removal takes the space next to what it removes along. -/
def withoutFirstSpace (t : Forest Tag) : Forest Tag :=
  match t with
  | n :: rest => if n.data = .space then rest else t
  | [] => []

def withoutLastSpace (t : Forest Tag) : Forest Tag :=
  if t.getLast?.any (fun n => n.data = .space) then t.dropLast else t

/-- Take one edit in. -/
def absorb (s : Slot) (edit : Node Tag) : Except FormError Slot := do
  let h ← halves edit
  if s.add.isEmpty then pure { add := h.payload, remove := s.remove ++ h.target }
  else
    match ← compareEdits s.add h.target with
    | .equal => pure { s with add := h.payload }
    | .baseLonger r .start =>
      pure { s with add := h.payload ++ (if h.isRemoval then withoutFirstSpace r else r) }
    | .baseLonger r .finish =>
      pure { s with add := (if h.isRemoval then withoutLastSpace r else r) ++ h.payload }
    | .editLonger r _ => pure { add := h.payload, remove := s.remove ++ r }
    | .conflict => throw (.conflict (summarize s.add) (summarize h.target))

def finish (s : Slot) : Forest Tag :=
  match s.remove.isEmpty, s.add.isEmpty with
  | true, _ => s.add
  | false, true => [.branch .remove s.remove]
  | false, false =>
    [.branch .replace [.branch .replaceMatch s.remove, .branch .replacePayload s.add]]

end Slot

/-- The content that an edit speaks of, and what is left before it. The siblings before the edit
stand newest first; the target is given in order. -/
def takeTarget (before : Forest Tag) : Forest Tag × Forest Tag :=
  match before with
  | [] => ([], [])
  | n :: rest =>
    if isInline n then
      ((List.takeWhile isInline before).reverse, List.dropWhile isInline before)
    else if isEdit n then ([], before)
    else ([n], rest)

/-- Resolve the edits among siblings. The siblings done stand newest first; `slot` is open after
an edit. -/
def resolveAmong (done : Forest Tag) (slot : Option Slot) :
    Forest Tag → Except FormError (Forest Tag)
  | [] => .ok (done.reverse ++ (slot.map Slot.finish).getD [])
  | n :: rest =>
    if isEdit n then
      match slot with
      | some s => do resolveAmong done (some (← s.absorb n)) rest
      | none => do
        let (target, before) := takeTarget done
        resolveAmong before (some (← Slot.absorb { add := target } n)) rest
    else
      match slot with
      | some s => resolveAmong (n :: (s.finish.reverse ++ done)) none rest
      | none => resolveAmong (n :: done) none rest

def resolveSiblings (t : Forest Tag) : Except FormError (Forest Tag) :=
  if List.any t isEdit then resolveAmong [] none (Forest.joinText t) else .ok t

/-- Apply an operation to the children of each node, to those of the last node first. -/
def onChildren (f : Forest Tag → Except FormError (Forest Tag)) :
    Forest Tag → Except FormError (Forest Tag)
  | [] => .ok []
  | n :: rest => do
    let later ← onChildren f rest
    let children ← f n.children
    pure ({ n with children } :: later)

/-- Resolve the edits of a forest over so many levels; children after their parents, later
siblings before earlier ones. -/
def resolveWithin : Nat → Forest Tag → Except FormError (Forest Tag)
  | 0, _ => .error (.document (.tooDeep maxDepth))
  | levels + 1, t => do
    let siblings ← resolveSiblings t
    onChildren (resolveWithin levels) siblings

end Edit

def Forest.applyEdits (t : Forest Tag) : Except FormError (Forest Tag) :=
  Edit.resolveWithin (maxDepth + 1) t

end WorldMarkup
