import WorldMarkup.World.Tag

/-!
Elements of the written form: a name and properties. A property value stands between parentheses,
double quotes or braces; inside the first two a backslash keeps a delimiter from ending the
value, while an expression in braces is written as it is.
-/

set_option autoImplicit false
set_option relaxedAutoImplicit false

namespace WorldMarkup

namespace Markup

/-- A character of a text, so that it reads as itself. -/
def escapeTextChar (c : Char) : List Char :=
  match c with
  | '\\' => ['\\', '\\']
  | '<' => ['\\', '<']
  | '>' => ['\\', '>']
  | '\n' => ['\\', 'n']
  | c => [c]

def escapeLiteralChar (c : Char) : List Char :=
  match c with
  | '\\' => ['\\', '\\']
  | '"' => ['\\', '"']
  | '\n' => ['\\', 'n']
  | c => [c]

def escapeKeyChar (c : Char) : List Char :=
  match c with
  | '\\' => ['\\', '\\']
  | ')' => ['\\', ')']
  | c => [c]

def escapeText (cs : List Char) : List Char := cs.flatMap escapeTextChar

def escapeLiteral (cs : List Char) : List Char := cs.flatMap escapeLiteralChar

def escapeKey (cs : List Char) : List Char := cs.flatMap escapeKeyChar

/-- Resolve the backslashes of a value: before an n one means a line break, before any other
character that character, and at the end itself. -/
def unescape : List Char → List Char
  | '\\' :: 'n' :: rest => '\n' :: unescape rest
  | '\\' :: c :: rest => c :: unescape rest
  | c :: rest => c :: unescape rest
  | [] => []

/-- What stands between the first and the last character, when both take a single byte. -/
def insideDelimiters : List Char → List Char
  | [] => []
  | c :: rest =>
    match rest.getLast? with
    | none => []
    | some d => if c.utf8Size = 1 ∧ d.utf8Size = 1 then rest.dropLast else []

def unescapeDelimited (cs : List Char) : List Char := unescape (insideDelimiters cs)

end Markup

open Markup

/-- The value of a property, by the delimiters it stands between. -/
inductive PropertyValue
  | key (s : String)
  | literal (s : String)
  | expression (s : String)
  deriving DecidableEq

def PropertyValue.render : PropertyValue → List Char
  | .key s => '(' :: (escapeKey s.toList ++ [')'])
  | .literal s => '"' :: (escapeLiteral s.toList ++ ['"'])
  | .expression s => '\x7b' :: (s.toList ++ ['\x7d'])

/-- A property of an opening tag. A condition stands there without a name. -/
inductive Property
  | condition (expression : String)
  | named (name : String) (value : PropertyValue)
  deriving DecidableEq

def Property.render : Property → List Char
  | .condition s => (PropertyValue.expression s).render
  | .named name value => name.toList ++ '=' :: value.render

/-- The name and the properties of a tag. -/
structure Element where
  name : String
  properties : List Property := []
  deriving DecidableEq

namespace Element

def propertiesInline (e : Element) : List Char :=
  e.properties.flatMap (fun p => ' ' :: p.render)

def propertiesBlock (e : Element) (indent : List Char) : List Char :=
  e.properties.flatMap (fun p => '\n' :: (indent ++ p.render))

def opening (e : Element) : List Char :=
  '<' :: (e.name.toList ++ e.propertiesInline ++ ['>'])

def selfClosing (e : Element) : List Char :=
  '<' :: (e.name.toList ++ e.propertiesInline ++ [' ', '/', '>'])

def openingBlock (e : Element) (indent : List Char) : List Char :=
  '<' :: (e.name.toList ++ e.propertiesBlock indent ++ ['\n', '>'])

def selfClosingBlock (e : Element) (indent : List Char) : List Char :=
  '<' :: (e.name.toList ++ e.propertiesBlock indent ++ ['\n', '/', '>'])

def closing (e : Element) : List Char := '<' :: '/' :: (e.name.toList ++ ['>'])

end Element

def Property.optional (name : String) (value : Option PropertyValue) : List Property :=
  (value.map (Property.named name)).toList

/-- The properties of an entity in printing order. -/
def Entity.properties (e : Entity) : List Property :=
  .named "key" (.key e.key) :: (Property.optional "from" (e.source.map .key) ++
    match e with
    | .plain .. => []
    | .variable v => Property.optional "default" (v.initial.map .expression)
    | .computed c => [.named "src" (.expression c.expression)]
    | .image i => Property.optional "url" (i.url.map .literal))

def Tag.properties : Tag → List Property
  | .asset key => [.named "key" (.key key)]
  | .entity e => e.properties
  | .exit key target => [.named "key" (.key key), .named "to" (.key target)]
  | .position room x y =>
    [.named "room" (.key room), .named "x" (.expression (toString x)),
      .named "y" (.expression (toString y))]
  | .pronouns p =>
    [.named "subject" (.literal p.subject), .named "object" (.literal p.object),
      .named "possessive" (.literal p.possessive), .named "adjective" (.literal p.adjective),
      .named "reflexive" (.literal p.reflexive)]
  | .link target => [.named "to" (.key target)]
  | .imported source => [.named "from" (.key source)]
  | .statement s => [.condition s.condition]
  | _ => []

/-- Whether the children of the tag are running text, in which blanks have meaning. -/
def Tag.isRunning : Tag → Bool
  | .field _ | .link _ => true
  | _ => false

def Extra.properties (e : Extra) : List Property := Property.optional "id" (e.id.map .key)

def Element.ofNode (n : Node Tag) : Element :=
  ⟨n.data.label, n.data.properties ++ n.extra.properties⟩

end WorldMarkup
