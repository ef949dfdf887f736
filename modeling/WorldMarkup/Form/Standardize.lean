import WorldMarkup.Form.Basic
import WorldMarkup.Form.Edit
import WorldMarkup.Form.SplitChain
import WorldMarkup.World.Ask
import WorldMarkup.World.Grammar

/-!
Bringing documents into one form. The documents come from the most inherited to the most local.
Their content is taken apart into paths, each component grows from the paths that belong to it,
and the edits in it are resolved.
-/

set_option autoImplicit false
set_option relaxedAutoImplicit false

namespace WorldMarkup

mutual

/-- Dissolve the wrapper of inherited content and mark what it held. -/
def Node.liftInherited (inherited : Bool) : Node Tag → Forest Tag
  | ⟨t, e, cs⟩ =>
    if t = .inherited then Forest.liftInherited true cs
    else
      let inherited := inherited || e.inherited
      [⟨t, { e with inherited }, Forest.liftInherited inherited cs⟩]

/-- Dissolve the wrappers of inherited content and mark what they held. -/
def Forest.liftInherited (inherited : Bool) : Forest Tag → Forest Tag
  | [] => []
  | n :: rest => n.liftInherited inherited ++ Forest.liftInherited inherited rest

end

mutual

def Node.stripInherited : Node Tag → Node Tag
  | ⟨t, e, cs⟩ => ⟨t, { e with inherited := false }, Forest.stripInherited cs⟩

def Forest.stripInherited : Forest Tag → Forest Tag
  | [] => []
  | n :: rest => n.stripInherited :: Forest.stripInherited rest

end

namespace Standardize

abbrev KeyIndex : Type := List (String × EntityKind)

/-- Note an entity; its key must not have another kind. -/
def observe (index : KeyIndex) (e : Entity) : Except FormError KeyIndex :=
  match index.find? (fun x => x.1 == e.key) with
  | some (key, kind) =>
    if kind = e.kind then .ok index else .error (.document (.kindConflict key kind e.kind))
  | none => .ok (index ++ [(e.key, e.kind)])

def ordered (index : KeyIndex) : KeyIndex := index.mergeSort (fun a b => a.2.rank ≤ b.2.rank)

def isDeclaration (t : Tag) : Bool :=
  match t with
  | .imported _ | .exported => true
  | _ => false

/-- A path from its first declaration on; nothing when it passes through none. -/
def declarationPath? (p : Path Tag) : Option (Path Tag) :=
  match p.dropWhile (fun s => !isDeclaration s.data) with
  | [] => none
  | rest => some rest

/-- What the last document with a root is about. -/
def container (inputs : List (Forest Tag)) : Except FormError (String × ContainerKind) :=
  match inputs.reverse.findSome? List.head? with
  | none => .error .noInput
  | some root =>
    match root.data with
    | .asset key => .ok (key, .asset)
    | .entity (.plain .character key _) => .ok (key, .character)
    | t => .error (.document (.invalidRoot t.label))

/-- What a root gives to the content: an asset its children, a character itself. -/
def rootContent (n : Node Tag) : Forest Tag :=
  match n.data with
  | .asset _ => Forest.liftInherited false n.children
  | _ => n.liftInherited false

def combined (inputs : List (Forest Tag)) : Forest Tag :=
  inputs.flatMap (fun t => List.flatMap rootContent t)

def declarations (paths : List (Path Tag)) : Except FormError (Forest Tag) :=
  if paths.isEmpty then .ok [] else Alignment.regrow paths

/-- What an import declares: an entity, and where it comes from. -/
structure Imported where
  entity : Entity
  origin : ImportOrigin

/-- The entities that a declaration imports. -/
def importedBy (n : Node Tag) : List Imported :=
  match n.data with
  | .imported asset =>
    List.filterMap (fun c => c.data.entity?.map (fun e =>
      ⟨e, { asset, key := e.source.getD e.key }⟩)) n.children
  | _ => []

/-- The paths of a component in their final order of steps: conditionals stand below the entity
and its fields. -/
def reorderings (kind : EntityKind) (key : String) : List WorldQuery :=
  let target := WorldQuery.entity kind key
  let anyField := WorldQuery.anyField
  [target, anyField,
    .all [WorldQuery.conditional, .before .every (.any [target, anyField])]]

def growComponent (kind : EntityKind) (key : String) (paths : List (Path Tag)) :
    Except FormError (Forest Tag) :=
  match Outline.ofPaths worldRules (SplitChain.complete kind key paths) with
  | .error e => .error (.tree e)
  | .ok o =>
    .ok ((o.reorder (reorderings kind key)).rankSiblings [.field, .listItem, .entity]).forest

/-- Put a child of the entity into its field, or among the items. -/
def place (c : Component) (child : Node Tag) : Component :=
  match child.data.field?.filter c.kind.hasField with
  | some f => { c with fields := Component.addField c.fields ⟨f, child⟩ }
  | none => { c with items := c.items ++ [child] }

def settleField (f : ComponentField) : Except FormError ComponentField := do
  let resolved := Forest.joinText (← Forest.applyEdits [f.node])
  pure (match resolved.getLast? with
    | some n => { f with node := n.stripInherited }
    | none => f)

/-- Resolve the edits of the fields, in order, and then those of the items. -/
def settle (c : Component) : Except FormError Component := do
  let fields ← c.fields.mapM settleField
  let items ← Forest.applyEdits c.items
  pure { c with fields, items := Forest.stripInherited (Forest.joinText items) }

/-- The component of a key from the content; nothing when no path belongs to it. -/
def componentOf (content : List (Path Tag)) (kind : EntityKind) (key : String) :
    Except FormError (Option Component) := do
  let paths := content.filterMap (Ownership.ownedPath? kind key)
  if paths.isEmpty then pure none
  else
    let grown ← growComponent kind key paths
    match List.filter (fun n : Node Tag => n.data.isEntityOf kind key) grown with
    | [] => throw (.document (.noRoot kind key))
    | root :: others =>
      match Component.ofTag root.data with
      | .error e => throw (.document e)
      | .ok shell =>
        let shell := { shell with extra := { id := root.extra.id } }
        let children := root.children ++ List.flatMap Node.children others
        pure (some (← settle (children.foldl place shell)))

def addComponent (content : List (Path Tag)) (imported : List Imported) (form : Form)
    (key : String) (kind : EntityKind) : Except FormError Form := do
  let source := imported.find? (fun x => x.entity.key == key)
  match ← componentOf content kind key with
  | some c => form.insert { c with origin := source.map Imported.origin }
  | none =>
    match source with
    | some x => form.insert { Component.ofEntity x.entity with origin := some x.origin }
    | none => pure form

def validateAll (inputs : List (Forest Tag)) : Except FormError Unit :=
  match inputs.findSome? Forest.documentFault? with
  | some e => .error (.document e)
  | none => .ok ()

end Standardize

open Standardize in
/-- Bring documents into one form, the most inherited first. -/
def standardize (inputs : List (Forest Tag)) : Except FormError Form := do
  validateAll inputs
  let (key, kind) ← container inputs
  let paths ← Forest.worldPaths (combined inputs)
  let content := paths.filter (fun p => (declarationPath? p).isNone)
  let index ← (content.flatten.filterMap (fun s => s.data.entity?)).foldlM observe []
  let declared ← declarations (paths.filterMap declarationPath?)
  let imported := List.flatMap importedBy declared
  let index ← (imported.map Imported.entity).foldlM observe index
  let stripped := Forest.stripInherited declared
  let form : Form :=
    { key, kind
      imports := List.filter (fun n => n.data.category = .imported) stripped
      exports := List.filter (fun n => n.data.category = .exported) stripped }
  (ordered index).foldlM (fun form x => addComponent content imported form x.1 x.2) form

end WorldMarkup
