import WorldMarkup.Form.Error
import WorldMarkup.World.TextRun

/-!
The standard form of an asset or a character: everything that is known of each key, in one place.
A component holds the fields of its entity in declared order and its other children as items.
-/

set_option autoImplicit false
set_option relaxedAutoImplicit false

namespace WorldMarkup

/-- What a document is about. -/
inductive ContainerKind
  | asset | character
  deriving DecidableEq

def ContainerKind.label : ContainerKind → String
  | .asset => "Asset"
  | .character => "Character"

/-- Where an imported component comes from: the asset, and the key it has there. -/
structure ImportOrigin where
  asset : String
  key : String
  deriving DecidableEq

/-- A field of a component; its node stands even when there is nothing in it. -/
structure ComponentField where
  kind : FieldKind
  node : Node Tag
  deriving DecidableEq

namespace ComponentField

def shell (kind : FieldKind) : ComponentField := ⟨kind, .leaf (.field kind)⟩

def isEmpty (f : ComponentField) : Bool := f.node.children.isEmpty

def extend (f : ComponentField) (content : Forest Tag) : ComponentField :=
  { f with node := { f.node with children := f.node.children ++ content } }

def joinText (f : ComponentField) : ComponentField :=
  { f with node := { f.node with children := Forest.joinText f.node.children } }

end ComponentField

/-- Everything known of one key. -/
structure Component where
  kind : EntityKind
  key : String
  /-- What the entity says, without where it is imported from. -/
  tag : Tag
  extra : Extra := {}
  /-- The fields of the kind in declared order. -/
  fields : List ComponentField
  /-- Exits, positions, pronouns, references to entities within, and conditionals around them. -/
  items : Forest Tag := []
  origin : Option ImportOrigin := none
  deriving DecidableEq

namespace Component

/-- A component with a shell for each field of its kind. -/
def ofEntity (e : Entity) : Component where
  kind := e.kind
  key := e.key
  tag := .entity e.withoutSource
  fields := e.kind.fields.map ComponentField.shell

def ofTag (t : Tag) : Except DocumentError Component :=
  match t with
  | .entity e => .ok (ofEntity e)
  | t => .error (.noEntity t.label)

def field? (c : Component) (kind : FieldKind) : Option (Node Tag) :=
  (c.fields.find? (fun f => f.kind = kind)).map ComponentField.node

def isEmpty (c : Component) : Bool := c.items.isEmpty && c.fields.all ComponentField.isEmpty

/-- Empty, and covered by an import. -/
def isElided (c : Component) : Bool := c.origin.isSome && c.isEmpty

/-- The component as a tree: the fields that hold something, then the items. -/
def toNode (c : Component) : Node Tag where
  data := c.tag
  extra := c.extra
  children := (c.fields.filter (fun f => !f.isEmpty)).map ComponentField.node ++ c.items

/-- Change the first field of a kind; `none` when there is no such field. -/
def updateField? (kind : FieldKind) (f : ComponentField → ComponentField) :
    List ComponentField → Option (List ComponentField)
  | [] => none
  | x :: rest =>
    if x.kind = kind then some (f x :: rest) else (updateField? kind f rest).map (x :: ·)

def addField (fields : List ComponentField) (f : ComponentField) : List ComponentField :=
  (updateField? f.kind (·.extend f.node.children) fields).getD (fields ++ [f])

/-- Lay another component of the key over this one: its content comes after. -/
def absorb (c later : Component) : Component where
  kind := c.kind
  key := c.key
  tag := later.tag
  extra := { c.extra with id := c.extra.id.or later.extra.id }
  fields := (later.fields.foldl addField c.fields).map ComponentField.joinText
  items := c.items ++ later.items
  origin := c.origin.or later.origin

/-- Put what came of a field's tree back under the field: a single tree of the field is taken as
it is, all else becomes its content. -/
def reroot (kind : FieldKind) (result : Forest Tag) : Node Tag :=
  match result with
  | [n] => if n.data = .field kind then n else .branch (.field kind) [n]
  | t => .branch (.field kind) t

def mapTrees (f : Forest Tag → Except FormError (Forest Tag)) (c : Component) :
    Except FormError Component := do
  let fields ← c.fields.mapM (fun x => do
    pure { x with node := reroot x.kind (← f [x.node]) })
  let items ← f c.items
  pure { c with fields, items }

end Component

/-- The standard form of an asset or a character. -/
structure Form where
  key : String
  kind : ContainerKind
  /-- Components by key, sorted by key. -/
  byKey : List (String × Component) := []
  /-- Keys in the order in which components are written. -/
  order : List String := []
  imports : Forest Tag := []
  exports : Forest Tag := []
  deriving DecidableEq

namespace Form

def component? (f : Form) (key : String) : Option Component :=
  (f.byKey.find? (fun x => x.1 == key)).map Prod.snd

def components (f : Form) : List Component := f.order.filterMap f.component?

def putAt (key : String) (c : Component) : List (String × Component) → List (String × Component)
  | [] => [(key, c)]
  | (k, x) :: rest =>
    if key < k then (key, c) :: (k, x) :: rest
    else if key = k then (key, c) :: rest
    else (k, x) :: putAt key c rest

/-- Put a component in; a new key comes last in the order. -/
def put (f : Form) (c : Component) : Form :=
  { f with
    byKey := putAt c.key c f.byKey
    order := if (f.component? c.key).isSome then f.order else f.order ++ [c.key] }

/-- Put a component in, unless its key has another kind already. -/
def insert (f : Form) (c : Component) : Except FormError Form :=
  match f.component? c.key with
  | some existing =>
    if existing.kind = c.kind then .ok (f.put c)
    else .error (.document (.kindConflict c.key existing.kind c.kind))
  | none => .ok (f.put c)

/-- Keys kind by kind; within a kind the order stays. Keys without a component come first. -/
def sortOrder (f : Form) : Form :=
  let rank (key : String) : Nat := ((f.component? key).map (fun c => c.kind.rank + 1)).getD 0
  { f with order := f.order.mergeSort (fun a b => rank a ≤ rank b) }

/-- The form as one document: imports, components and exports. Empty components that an import
covers are left out. -/
def schema (f : Form) : Forest Tag :=
  match f.kind with
  | .asset =>
    [.branch (.asset f.key) (f.imports ++
      (f.components.filter (fun c => !c.isElided)).map Component.toNode ++ f.exports)]
  | .character =>
    let root := match f.component? f.key with
      | some c => c.toNode
      | none => .leaf (Tag.character f.key)
    [⟨root.data, root.extra, f.imports ++ root.children⟩]

end Form

end WorldMarkup
