import WorldMarkup.Tree.Basic
import WorldMarkup.World.Kind

/-!
Tags: what a node of a world document says. Entities are the things of the world, known by kind
and key; fields hold their texts; conditionals choose between branches; edits change text that
another document holds; imports and exports tie documents together.
-/

set_option autoImplicit false
set_option relaxedAutoImplicit false

namespace WorldMarkup

/-- A named value, with what it starts as. -/
structure Variable where
  key : String
  /-- The key in the asset it is imported from. -/
  source : Option String := none
  initial : Option String := none
  deriving DecidableEq

/-- A value computed from others. -/
structure Computed where
  key : String
  source : Option String := none
  expression : String := ""
  /-- The names that the expression reads. -/
  dependencies : List String := []
  deriving DecidableEq

structure Image where
  key : String
  source : Option String := none
  url : Option String := none
  deriving DecidableEq

/-- How a character is spoken of. -/
structure Pronouns where
  subject : String := "they"
  object : String := "them"
  possessive : String := "theirs"
  adjective : String := "their"
  reflexive : String := "themself"
  deriving DecidableEq

/-- The condition of a branch. -/
structure Statement where
  condition : String
  /-- The names that the condition reads. -/
  dependencies : List String := []
  deriving DecidableEq

/-- A thing of the world. -/
inductive Entity
  | plain (kind : PlainKind) (key : String) (source : Option String)
  | variable (v : Variable)
  | computed (c : Computed)
  | image (i : Image)
  deriving DecidableEq

namespace Entity

def kind : Entity → EntityKind
  | .plain k _ _ => .plain k
  | .variable _ => .variable
  | .computed _ => .computed
  | .image _ => .image

def key : Entity → String
  | .plain _ key _ => key
  | .variable v => v.key
  | .computed c => c.key
  | .image i => i.key

def source : Entity → Option String
  | .plain _ _ source => source
  | .variable v => v.source
  | .computed c => c.source
  | .image i => i.source

def withoutSource : Entity → Entity
  | .plain k key _ => .plain k key none
  | .variable v => .variable { v with source := none }
  | .computed c => .computed { c with source := none }
  | .image i => .image { i with source := none }

def ofKind (kind : EntityKind) (key : String) : Entity :=
  match kind with
  | .plain k => .plain k key none
  | .variable => .variable { key }
  | .computed => .computed { key }
  | .image => .image { key }

@[simp] theorem kind_ofKind (kind : EntityKind) (key : String) :
    (ofKind kind key).kind = kind := by
  cases kind <;> rfl

@[simp] theorem key_ofKind (kind : EntityKind) (key : String) : (ofKind kind key).key = key := by
  cases kind <;> rfl

@[simp] theorem kind_withoutSource (e : Entity) : e.withoutSource.kind = e.kind := by
  cases e <;> rfl

@[simp] theorem key_withoutSource (e : Entity) : e.withoutSource.key = e.key := by
  cases e <;> rfl

@[simp] theorem source_withoutSource (e : Entity) : e.withoutSource.source = none := by
  cases e <;> rfl

end Entity

/-- What a node says. -/
inductive Tag
  /-- The root of a document. -/
  | asset (key : String)
  | entity (e : Entity)
  /-- A way out of a room. -/
  | exit (key target : String)
  /-- Where a room stands on a map. -/
  | position (room : String) (x y : Int64)
  | pronouns (p : Pronouns)
  | text (value : String)
  | link (target : String)
  | lineBreak
  | space
  | field (f : FieldKind)
  /-- A choice between branches. -/
  | conditional
  | statement (s : Statement)
  /-- The branch for when no condition holds. -/
  | fallthrough
  | remove
  | replace
  | replaceMatch
  | replacePayload
  | imported (source : String)
  | exported
  | inherited
  deriving DecidableEq

namespace Tag

def room (key : String) : Tag := .entity (.ofKind (.plain .room) key)

def feature (key : String) : Tag := .entity (.ofKind (.plain .feature) key)

def character (key : String) : Tag := .entity (.ofKind (.plain .character) key)

def onCondition (condition : String) : Tag := .statement { condition }

def label : Tag → String
  | .asset _ => "Asset"
  | .entity e => e.kind.label
  | .exit .. => "Exit"
  | .position .. => "Position"
  | .pronouns _ => "Pronouns"
  | .text _ => "String"
  | .link _ => "Link"
  | .lineBreak => "br"
  | .space => "Space"
  | .field f => f.label
  | .conditional => "If"
  | .statement _ => "Statement"
  | .fallthrough => "Else"
  | .remove => "Remove"
  | .replace => "Replace"
  | .replaceMatch => "ReplaceMatch"
  | .replacePayload => "ReplacePayload"
  | .imported _ => "Import"
  | .exported => "Export"
  | .inherited => "Inherited"

def entity? : Tag → Option Entity
  | .entity e => some e
  | _ => none

def isEntityOf (kind : EntityKind) (key : String) : Tag → Bool
  | .entity e => e.kind = kind && e.key = key
  | _ => false

def withoutSource : Tag → Tag
  | .entity e => .entity e.withoutSource
  | t => t

def field? : Tag → Option FieldKind
  | .field f => some f
  | _ => none

def list? : Tag → Option ListKind
  | .exit .. => some .exits
  | .position .. => some .positions
  | .pronouns _ => some .pronouns
  | _ => none

def text? : Tag → Option String
  | .text value => some value
  | _ => none

def isText (t : Tag) : Bool := t.text?.isSome

/-- Whether the tag may stand at the root of a document. -/
def isContainer : Tag → Bool
  | .asset _ => true
  | .entity e => e.kind = .plain .character
  | _ => false

def category : Tag → Category
  | .asset _ => .container
  | .entity _ => .entity
  | .exit .. | .position .. | .pronouns _ => .listItem
  | .field _ => .field
  | .text _ | .link _ | .lineBreak | .space => .inline
  | .conditional => .conditional
  | .statement _ | .fallthrough => .branch
  | .remove | .replace => .edit
  | .replaceMatch | .replacePayload => .editBranch
  | .imported _ => .imported
  | .exported => .exported
  | .inherited => .inherited

/-- Whether the children of the tag stay together when paths are filtered. -/
def isWrapper : Tag → Bool
  | .conditional | .remove | .replace => true
  | _ => false

end Tag

end WorldMarkup
