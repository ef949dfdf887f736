import WorldMarkup.Form.Record
import WorldMarkup.Json.Document

/-!
Forms and records as JSON.
-/

set_option autoImplicit false
set_option relaxedAutoImplicit false

namespace WorldMarkup

open Json

def Forest.tagsToJson (t : Forest Tag) : Json := Forest.toJson Tag.toJson t

def Forest.tagsOfJson? (v : Json) : Option (Forest Tag) := Forest.ofJson? Tag.ofJson? v

def EntityKind.ofJson? (v : Json) : Option EntityKind := v.choice?.bind ofLabel?

def FieldKind.ofJson? (v : Json) : Option FieldKind := v.choice?.bind ofLabel?

def ContainerKind.ofJson? (v : Json) : Option ContainerKind :=
  match v.choice? with
  | some "Asset" => some .asset
  | some "Character" => some .character
  | _ => none

namespace ImportOrigin

def toJson (o : ImportOrigin) : Json :=
  .object [("asset", .string o.asset), ("key", .string o.key)]

def ofJson? (v : Json) : Option ImportOrigin := do
  let ms ← v.fields? ["asset", "key"]
  let asset ← need ms "asset" string?
  let key ← need ms "key" string?
  pure { asset, key }

end ImportOrigin

namespace ComponentField

def toJson (f : ComponentField) : Json :=
  .object [("field", .string f.kind.label), ("node", f.node.toJson Tag.toJson)]

def ofJson? (v : Json) : Option ComponentField := do
  let ms ← v.fields? ["field", "node"]
  let kind ← need ms "field" FieldKind.ofJson?
  let node ← need ms "node" (Node.ofJson? Tag.ofJson?)
  pure { kind, node }

end ComponentField

namespace Component

def toJson (c : Component) : Json :=
  .object ([("kind", .string c.kind.label), ("key", .string c.key), ("tag", c.tag.toJson)] ++
    (if c.extra.isEmpty then [] else [("extra", c.extra.toJson)]) ++
    [("fields", .array (c.fields.map ComponentField.toJson)),
      ("items", Forest.tagsToJson c.items)] ++
    optional "from" (c.origin.map ImportOrigin.toJson))

def ofJson? (v : Json) : Option Component := do
  let ms ← v.fields? ["kind", "key", "tag", "extra", "fields", "items", "from"]
  let kind ← need ms "kind" EntityKind.ofJson?
  let key ← need ms "key" string?
  let tag ← need ms "tag" Tag.ofJson?
  let extra ← orElse ms "extra" {} Extra.ofJson?
  let fields ← need ms "fields" (Json.list? ComponentField.ofJson?)
  let items ← need ms "items" Forest.tagsOfJson?
  let origin ← maybe ms "from" ImportOrigin.ofJson?
  pure { kind, key, tag, extra, fields, items, origin }

end Component

namespace Form

def toJson (f : Form) : Json :=
  .object [("key", .string f.key), ("kind", .string f.kind.label),
    ("by_id", .object (f.byKey.map (fun x => (x.1, x.2.toJson)))),
    ("order", .array (strings f.order)), ("imports", Forest.tagsToJson f.imports),
    ("exports", Forest.tagsToJson f.exports)]

def byKeyOfJson? (v : Json) : Option (List (String × Component)) := do
  let ms ← v.members?
  let components ← ms.mapM (fun m => do pure (m.1, ← Component.ofJson? m.2))
  pure (components.foldl (fun sorted x => putAt x.1 x.2 sorted) [])

def ofJson? (v : Json) : Option Form := do
  let ms ← v.fields? ["key", "kind", "by_id", "order", "imports", "exports"]
  let key ← need ms "key" string?
  let kind ← need ms "kind" ContainerKind.ofJson?
  let byKey ← need ms "by_id" byKeyOfJson?
  let order ← need ms "order" (Json.list? string?)
  let imports ← need ms "imports" Forest.tagsOfJson?
  let exports ← need ms "exports" Forest.tagsOfJson?
  pure { key, kind, byKey, order, imports, exports }

end Form

def Record.toJson (r : Record) : Json :=
  .object ([("kind", .string r.kind.label), ("key", .string r.key), ("tag", r.tag.toJson),
    ("fields", .array (r.fields.map ComponentField.toJson))] ++
    nonempty "items" (Forest.toJsonEach Tag.toJson r.items) ++
    optional "from" (r.origin.map ImportOrigin.toJson))

end WorldMarkup
