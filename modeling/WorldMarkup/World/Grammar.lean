import WorldMarkup.Text.Blank
import WorldMarkup.World.Error

/-!
Which documents are well formed: roots are assets or characters, properties that must be given
are given, and each child may stand where it stands. What may stand below a conditional or an
edit is decided by the nearest tag above it that is neither.
-/

set_option autoImplicit false
set_option relaxedAutoImplicit false

namespace WorldMarkup

namespace Tag

/-- Whether the tag leaves it to the tags above to say what may stand below. -/
def isTransparent : Tag → Bool
  | .conditional | .statement _ | .fallthrough | .remove | .replace | .replaceMatch
  | .replacePayload | .inherited => true
  | _ => false

/-- What a field may hold. -/
def isInlineContent : Tag → Bool
  | .text _ | .link _ | .lineBreak | .space | .conditional | .remove | .replace => true
  | _ => false

/-- Whether the child may stand in an entity of the kind. -/
def inEntity (kind : EntityKind) (child : Tag) : Bool :=
  match child with
  | .field f => kind.hasField f
  | .conditional | .remove | .replace | .inherited =>
    !kind.fields.isEmpty || !kind.lists.isEmpty
  | .entity e =>
    match kind, e.kind with
    | .plain .room, .plain .feature | .plain .room, .plain .knowledge => true
    | .plain .map, .image | .plain .character, .image => true
    | .plain .theme, .plain .room | .plain .theme, .plain .map => true
    | .plain .message, .plain .room => true
    | .plain .moment, .plain .message => true
    | _, _ => false
  | .exit .. => kind = .plain .room
  | .position .. => kind = .plain .map
  | .pronouns _ | .imported _ => kind = .plain .character
  | _ => false

/-- Whether the child may stand in a tag that is not transparent. -/
def allows (context child : Tag) : Bool :=
  match context with
  | .asset _ =>
    match child with
    | .entity e => e.kind ≠ .plain .character
    | .conditional | .imported _ | .exported | .inherited => true
    | _ => false
  | .imported _ | .exported => child.entity?.isSome
  | .field _ => child.isInlineContent
  | .link _ => child.isText
  | .entity e => child.inEntity e.kind
  | _ => false

/-- Whether the child may stand directly below `parent`, where `context` is the nearest tag above
it that is not transparent. -/
def allowsChild (parent context child : Tag) : Bool :=
  match parent with
  | .conditional => child.category = .branch
  | .replace => child.category = .editBranch
  | _ =>
    match child with
    | .statement _ | .fallthrough | .replaceMatch | .replacePayload => false
    | _ => allows context child

/-- The property that must be given and is not. -/
def missing? (t : Tag) : Option DocumentError :=
  match t with
  | .entity e => if e.key.isEmpty then some (.missingProperty t.label "key") else none
  | .asset key => if key.isEmpty then some (.missingProperty "Asset" "key") else none
  | .exit _ target => if target.isEmpty then some (.missingProperty "Exit" "to") else none
  | .position room _ _ => if room.isEmpty then some (.missingProperty "Position" "room") else none
  | .link target => if target.isEmpty then some (.missingProperty "Link" "to") else none
  | .statement s =>
    if Text.isBlankText s.condition then some (.missingProperty "If" "condition") else none
  | .imported source => if source.isEmpty then some (.missingProperty "Import" "from") else none
  | _ => none

/-- The element that a misplaced child is reported in: a conditional or a replacement answers
for itself. -/
def blamed (parent context : Tag) : Tag :=
  match parent with
  | .conditional | .replace => parent
  | _ => context

end Tag

/-- What is above a node: its parent, and the nearest tag above it that is not transparent or is
a root. -/
structure Setting where
  parent : Tag
  context : Tag

/-- What a node passes on to its children. A transparent node below another passes its own
context on. -/
def Setting.below (above : Option Setting) (t : Tag) : Setting :=
  match above with
  | some s => ⟨t, if t.isTransparent then s.context else t⟩
  | none => ⟨t, t⟩

/-- The fault of a single node at `depth`: it is too deep, lacks a property, or is misplaced. -/
def Tag.fault? (above : Option Setting) (depth : Nat) (t : Tag) : Option DocumentError :=
  if maxDepth ≤ depth then some (.tooDeep maxDepth)
  else t.missing?.or (above.bind (fun s =>
    if s.parent.allowsChild s.context t then none
    else some (.disallowedChild (s.parent.blamed s.context).label t.label)))

mutual

/-- The first fault of a tree in preorder. -/
def Node.grammarFault? (above : Option Setting) (depth : Nat) : Node Tag → Option DocumentError
  | ⟨t, _, cs⟩ =>
    (t.fault? above depth).or
      (Forest.grammarFault? (some (Setting.below above t)) (depth + 1) cs)

def Forest.grammarFault? (above : Option Setting) (depth : Nat) :
    Forest Tag → Option DocumentError
  | [] => none
  | n :: rest => (n.grammarFault? above depth).or (Forest.grammarFault? above depth rest)

end

/-- What is wrong with a document: the last root that may not be one, or else the first fault. -/
def Forest.documentFault? (t : Forest Tag) : Option DocumentError :=
  match t.reverse.find? (fun n => !n.data.isContainer) with
  | some n => some (.invalidRoot n.data.label)
  | none => Forest.grammarFault? none 0 t

/-- Check a whole document. -/
def Forest.validate (t : Forest Tag) : Except DocumentError Unit :=
  match Forest.documentFault? t with
  | some fault => .error fault
  | none => .ok ()

end WorldMarkup
