/-!
The closed vocabulary of a world: kinds of entity with their order and their fields, kinds of
field, kinds of list item, and the categories that all nodes fall into.
-/

set_option autoImplicit false
set_option relaxedAutoImplicit false

namespace WorldMarkup

/-- The named texts of an entity. -/
inductive FieldKind
  | name | shortName | summary | description
  deriving DecidableEq

/-- What an entity may list beside its fields. -/
inductive ListKind
  | exits | positions | pronouns
  deriving DecidableEq

/-- Kinds of entity that hold no value of their own. -/
inductive PlainKind
  | character | room | feature | knowledge | map | theme | bookmark | message | moment | action
  deriving DecidableEq

/-- Kinds of entity. -/
inductive EntityKind
  | variable | computed | image
  | plain (kind : PlainKind)
  deriving DecidableEq

namespace FieldKind

def all : List FieldKind := [.name, .shortName, .summary, .description]

def label : FieldKind → String
  | .name => "Name"
  | .shortName => "ShortName"
  | .summary => "Summary"
  | .description => "Description"

end FieldKind

namespace ListKind

def all : List ListKind := [.exits, .positions, .pronouns]

def label : ListKind → String
  | .exits => "Exits"
  | .positions => "Positions"
  | .pronouns => "Pronouns"

end ListKind

namespace EntityKind

/-- Kinds in their fixed order; forms list their components kind by kind in this order. -/
def all : List EntityKind :=
  [.variable, .computed, .plain .character, .plain .room, .plain .feature, .plain .knowledge,
    .plain .map, .image, .plain .theme, .plain .bookmark, .plain .message, .plain .moment,
    .plain .action]

def label : EntityKind → String
  | .variable => "Variable"
  | .computed => "Computed"
  | .image => "Image"
  | .plain .character => "Character"
  | .plain .room => "Room"
  | .plain .feature => "Feature"
  | .plain .knowledge => "Knowledge"
  | .plain .map => "Map"
  | .plain .theme => "Theme"
  | .plain .bookmark => "Bookmark"
  | .plain .message => "Message"
  | .plain .moment => "Moment"
  | .plain .action => "Action"

/-- The place of the kind in the fixed order. -/
def rank : EntityKind → Nat
  | .variable => 0
  | .computed => 1
  | .plain .character => 2
  | .plain .room => 3
  | .plain .feature => 4
  | .plain .knowledge => 5
  | .plain .map => 6
  | .image => 7
  | .plain .theme => 8
  | .plain .bookmark => 9
  | .plain .message => 10
  | .plain .moment => 11
  | .plain .action => 12

def fields : EntityKind → List FieldKind
  | .plain .room => [.shortName, .name, .summary, .description]
  | .plain .character => [.name, .shortName, .summary, .description]
  | .plain .feature | .plain .bookmark | .plain .moment | .plain .action => [.name, .description]
  | .plain .knowledge => [.name, .summary, .description]
  | .plain .map | .plain .theme => [.name]
  | .plain .message => [.description]
  | .variable | .computed | .image => []

def lists : EntityKind → List ListKind
  | .plain .room => [.exits]
  | .plain .map => [.positions]
  | .plain .character => [.pronouns]
  | _ => []

def hasField (k : EntityKind) (f : FieldKind) : Bool := k.fields.contains f

end EntityKind

/-- What a node is to the rules of regrowth. -/
inductive Category
  | container | entity | listItem | field | inline | conditional | branch | edit | editBranch
  | imported | exported | inherited
  deriving DecidableEq

namespace Category

def all : List Category :=
  [.container, .entity, .listItem, .field, .inline, .conditional, .branch, .edit, .editBranch,
    .imported, .exported, .inherited]

def label : Category → String
  | .container => "Container"
  | .entity => "Entity"
  | .listItem => "ListItem"
  | .field => "Field"
  | .inline => "Inline"
  | .conditional => "Conditional"
  | .branch => "Branch"
  | .edit => "Edit"
  | .editBranch => "EditBranch"
  | .imported => "Import"
  | .exported => "Export"
  | .inherited => "Inherited"

end Category

end WorldMarkup
