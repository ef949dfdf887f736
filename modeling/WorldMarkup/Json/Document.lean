import WorldMarkup.Json.Member
import WorldMarkup.World.Tag

/-!
World documents as JSON. A tag is an object that names its type; a node wraps a tag with its
extra and its children, either of which is left out when there is nothing in it. Reading also
takes arrays for nodes, extras and tags; that of a tag begins with the type.
-/

set_option autoImplicit false
set_option relaxedAutoImplicit false

namespace WorldMarkup

namespace Json

def optional (key : String) (value : Option Json) : List (String × Json) :=
  (value.map (fun v => (key, v))).toList

def nonempty (key : String) (items : List Json) : List (String × Json) :=
  if items.isEmpty then [] else [(key, .array items)]

def strings (ss : List String) : List Json := ss.map .string

end Json

open Json

namespace Extra

def toJson (e : Extra) : Json :=
  .object (optional "id" (e.id.map .string) ++
    (if e.inherited then [("inherited", .bool true)] else []))

def ofJson? (v : Json) : Option Extra := do
  let ms ← v.fields? ["id", "inherited"]
  let id ← maybe ms "id" string?
  let inherited ← orElse ms "inherited" false bool?
  pure { id, inherited }

end Extra

variable {α : Type}

mutual

def Node.toJson (data : α → Json) : Node α → Json
  | ⟨d, e, cs⟩ =>
    .object ([("data", data d)] ++ (if e.isEmpty then [] else [("extra", e.toJson)]) ++
      nonempty "children" (Forest.toJsonEach data cs))

def Forest.toJsonEach (data : α → Json) : Forest α → List Json
  | [] => []
  | n :: rest => n.toJson data :: Forest.toJsonEach data rest

end

def Forest.toJson (data : α → Json) (t : Forest α) : Json := .array (Forest.toJsonEach data t)

/-- Read a tree, given how to read its data; `fuel` bounds its depth. -/
def Node.ofJsonWithin? (data : Json → Option α) : Nat → Json → Option (Node α)
  | 0, _ => none
  | fuel + 1, v => do
    let ms ← v.fields? ["data", "extra", "children"]
    let d ← need ms "data" data
    let extra ← orElse ms "extra" {} Extra.ofJson?
    let children ← orElse ms "children" [] (list? (Node.ofJsonWithin? data fuel))
    pure ⟨d, extra, children⟩

mutual

/-- Number of levels of a value. -/
def Json.depth : Json → Nat
  | .array items => 1 + depthEach items
  | .object members => 1 + depthMembers members
  | _ => 1

def Json.depthEach : List Json → Nat
  | [] => 0
  | v :: rest => max v.depth (depthEach rest)

def Json.depthMembers : List (String × Json) → Nat
  | [] => 0
  | (_, v) :: rest => max v.depth (depthMembers rest)

end

def Node.ofJson? (data : Json → Option α) (v : Json) : Option (Node α) :=
  Node.ofJsonWithin? data v.depth v

def Forest.ofJson? (data : Json → Option α) (v : Json) : Option (Forest α) :=
  list? (Node.ofJson? data) v

def PlainKind.label (k : PlainKind) : String := (EntityKind.plain k).label

def EntityKind.ofLabel? (s : String) : Option EntityKind :=
  EntityKind.all.find? (fun k => k.label == s)

def FieldKind.ofLabel? (s : String) : Option FieldKind :=
  FieldKind.all.find? (fun f => f.label == s)

def Category.ofLabel? (s : String) : Option Category :=
  Category.all.find? (fun c => c.label == s)

namespace Tag

/-- The members of a tag beside its type. -/
def jsonMembers : Tag → List (String × Json)
  | .asset key => [("key", .string key)]
  | .entity (.plain _ key source) =>
    ("key", .string key) :: optional "from" (source.map .string)
  | .entity (.variable v) =>
    ("key", .string v.key) :: (optional "from" (v.source.map .string) ++
      optional "default" (v.initial.map .string))
  | .entity (.computed c) =>
    ("key", .string c.key) :: (optional "from" (c.source.map .string) ++
      ("src", .string c.expression) :: nonempty "dependencies" (strings c.dependencies))
  | .entity (.image i) =>
    ("key", .string i.key) :: (optional "from" (i.source.map .string) ++
      optional "url" (i.url.map .string))
  | .exit key target => [("key", .string key), ("to", .string target)]
  | .position room x y => [("room", .string room), ("x", .int x.toInt), ("y", .int y.toInt)]
  | .pronouns p =>
    [("subject", .string p.subject), ("object", .string p.object),
      ("possessive", .string p.possessive), ("adjective", .string p.adjective),
      ("reflexive", .string p.reflexive)]
  | .text value => [("value", .string value)]
  | .link target => [("to", .string target)]
  | .statement s =>
    ("condition", .string s.condition) :: nonempty "dependencies" (strings s.dependencies)
  | .imported source => [("from", .string source)]
  | _ => []

/-- The name of the type in JSON: the element name, but for breaks and fallthroughs. -/
def jsonType : Tag → String
  | .lineBreak => "LineBreak"
  | .fallthrough => "Fallthrough"
  | t => t.label

def toJson (t : Tag) : Json := .object (("type", .string t.jsonType) :: t.jsonMembers)

def entityOfMembers? (kind : EntityKind) (ms : List (String × Json)) : Option Entity := do
  let key ← need ms "key" string?
  let source ← maybe ms "from" string?
  match kind with
  | .plain k => pure (.plain k key source)
  | .variable => pure (.variable { key, source, initial := ← maybe ms "default" string? })
  | .computed =>
    let expression ← orElse ms "src" "" string?
    let dependencies ← orElse ms "dependencies" [] (Json.list? string?)
    pure (.computed { key, source, expression, dependencies })
  | .image => pure (.image { key, source, url := ← maybe ms "url" string? })

def otherOfMembers? (type : String) (ms : List (String × Json)) : Option Tag :=
  match type with
  | "Asset" => return .asset (← need ms "key" string?)
  | "Exit" => return .exit (← need ms "key" string?) (← need ms "to" string?)
  | "Position" =>
    return .position (← need ms "room" string?) (← need ms "x" int?) (← need ms "y" int?)
  | "Pronouns" => do
    let subject ← need ms "subject" string?
    let object ← need ms "object" string?
    let possessive ← need ms "possessive" string?
    let adjective ← need ms "adjective" string?
    let reflexive ← need ms "reflexive" string?
    pure (.pronouns { subject, object, possessive, adjective, reflexive })
  | "String" => return .text (← need ms "value" string?)
  | "Link" => return .link (← need ms "to" string?)
  | "LineBreak" => some .lineBreak
  | "Space" => some .space
  | "If" => some .conditional
  | "Statement" => do
    let condition ← need ms "condition" string?
    let dependencies ← orElse ms "dependencies" [] (Json.list? string?)
    pure (.statement { condition, dependencies })
  | "Fallthrough" => some .fallthrough
  | "Remove" => some .remove
  | "Replace" => some .replace
  | "ReplaceMatch" => some .replaceMatch
  | "ReplacePayload" => some .replacePayload
  | "Import" => return .imported (← need ms "from" string?)
  | "Export" => some .exported
  | "Inherited" => some .inherited
  | _ => none

def ofMembers? (type : String) (ms : List (String × Json)) : Option Tag :=
  match EntityKind.ofLabel? type, FieldKind.ofLabel? type with
  | some kind, _ => (entityOfMembers? kind ms).map .entity
  | none, some f => some (.field f)
  | none, none => otherOfMembers? type ms

/-- The members of an entity, in the order in which an array gives them. -/
def entityFields (kind : EntityKind) : List String :=
  ["key", "from"] ++ match kind with
    | .plain _ => []
    | .variable => ["default"]
    | .computed => ["src", "dependencies"]
    | .image => ["url"]

/-- The members of a type, in the order in which an array gives them after the type. -/
def fieldsOfType (type : String) : List String :=
  match EntityKind.ofLabel? type, type with
  | some kind, _ => entityFields kind
  | none, "Asset" => ["key"]
  | none, "Exit" => ["key", "to"]
  | none, "Position" => ["room", "x", "y"]
  | none, "Pronouns" => ["subject", "object", "possessive", "adjective", "reflexive"]
  | none, "String" => ["value"]
  | none, "Link" => ["to"]
  | none, "Statement" => ["condition", "dependencies"]
  | none, "Import" => ["from"]
  | none, _ => []

/-- Read a tag. The type is looked for anywhere in the object, so that no part of a tag is passed
over and none may be broken. -/
def ofJson? (v : Json) : Option Tag :=
  if ¬ v.isSound then none
  else match v with
    | .array (.string type :: rest) =>
      (Json.array rest).fields? (fieldsOfType type) >>= ofMembers? type
    | .object ms => do ofMembers? (← need ms "type" string?) ms
    | _ => none

end Tag

end WorldMarkup
