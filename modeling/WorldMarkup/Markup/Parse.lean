import WorldMarkup.Markup.Event
import WorldMarkup.Markup.Scan
import WorldMarkup.Text.Blank

/-!
Reading a written document back into a forest. Outside of fields and links only blanks may stand
between tags. Inside them a run of blanks with a line break in it reads as one space, or as
nothing at either end of the content; all other characters are kept.
-/

set_option autoImplicit false
set_option relaxedAutoImplicit false

namespace WorldMarkup.Markup

/-- A blank of running text; an escaped character never is one. -/
def isSoftBlank (x : Char × Bool) : Bool := !x.2 && Text.isBlank x.1

/-- Settle the blanks of a run of text that stands at the start or at the end of the content, or
at neither. -/
def settleBlanks (atStart atEnd : Bool) (chars : List (Char × Bool)) : List Char :=
  match chars with
  | [] => []
  | x :: rest =>
    if isSoftBlank x then
      let run := x :: rest.takeWhile isSoftBlank
      let after := rest.dropWhile isSoftBlank
      have := (List.dropWhile_sublist isSoftBlank (l := rest)).length_le
      (if run.any (fun y => y.1 == '\n') then
          if atStart || (after.isEmpty && atEnd) then [] else [' ']
        else run.map Prod.fst) ++ settleBlanks false atEnd after
    else x.1 :: settleBlanks false atEnd rest
termination_by chars.length

/-- A decimal number of 64 bits with or without a sign, blanks around it. -/
def integer? (s : String) : Option Int64 :=
  let value (negative : Bool) (ds : List Char) : Option Int64 :=
    if ds.isEmpty || !ds.all Char.isDigit then none
    else
      let n : Int := Nat.ofDigitChars 10 ds 0
      let n := if negative then -n else n
      if -0x8000000000000000 ≤ n ∧ n < 0x8000000000000000 then some (Int64.ofInt n) else none
  match Text.trimList s.toList with
  | '-' :: ds => value true ds
  | '+' :: ds => value false ds
  | ds => value false ds

namespace Attributes

def need (a : Attributes) (element name : String) : Except ReadError String :=
  match a.get? name with
  | some s => .ok s
  | none => .error (.missingAttribute element name)

def number (a : Attributes) (element name : String) : Except ReadError Int64 := do
  let s ← a.need element name
  match integer? s with
  | some n => .ok n
  | none => .error (.invalidNumber element s)

end Attributes

def entityOf (kind : EntityKind) (a : Attributes) : Except ReadError Entity := do
  let key ← a.need kind.label "key"
  let source := a.get? "from"
  pure (match kind with
    | .plain k => .plain k key source
    | .variable => .variable { key, source, initial := a.get? "default" }
    | .computed => .computed { key, source, expression := (a.get? "src").getD "" }
    | .image => .image { key, source, url := a.get? "url" })

/-- The tag of an element that is neither an entity nor a field. -/
def otherOf (name : String) (a : Attributes) (offset : Nat) : Except ReadError Tag :=
  match name with
  | "Asset" => do pure (.asset (← a.need name "key"))
  | "Exit" => do
    let key ← a.need name "key"
    let target ← a.need name "to"
    pure (.exit key target)
  | "Position" => do
    let room ← a.need name "room"
    let x ← a.number name "x"
    let y ← a.number name "y"
    pure (.position room x y)
  | "Pronouns" =>
    let p : Pronouns := {}
    .ok (.pronouns
      { subject := (a.get? "subject").getD p.subject
        object := (a.get? "object").getD p.object
        possessive := (a.get? "possessive").getD p.possessive
        adjective := (a.get? "adjective").getD p.adjective
        reflexive := (a.get? "reflexive").getD p.reflexive })
  | "Link" => do pure (.link (← a.need name "to"))
  | "br" => .ok .lineBreak
  | "Space" => .ok .space
  | "If" => .ok .conditional
  | "Remove" => .ok .remove
  | "Replace" => .ok .replace
  | "ReplaceMatch" => .ok .replaceMatch
  | "ReplacePayload" => .ok .replacePayload
  | "Import" => do pure (.imported (← a.need name "from"))
  | "Export" => .ok .exported
  | "Inherited" => .ok .inherited
  | _ => .error (.unknownElement name offset)

def tagOf (name : String) (a : Attributes) (offset : Nat) : Except ReadError Tag :=
  match EntityKind.all.find? (fun k => k.label == name),
    FieldKind.all.find? (fun f => f.label == name) with
  | some kind, _ => (entityOf kind a).map .entity
  | none, some f => .ok (.field f)
  | none, none => otherOf name a offset

/-- An element whose closing tag is still to come, or the whole document. The children of a
conditional are its branches. -/
structure Frame where
  tag : Option Tag := none
  extra : Extra := {}
  /-- Whether the content is running text. -/
  running : Bool := false
  /-- Whether nothing has been read since the opening tag or the last branch began. -/
  fresh : Bool := true
  children : Forest Tag := []

namespace Frame

def isConditional (f : Frame) : Bool := f.tag == some .conditional

/-- Add a node to the end of a forest of branches, into the last one. -/
def intoLast (n : Node Tag) : Forest Tag → Option (Forest Tag)
  | [] => none
  | [b] => some [{ b with children := b.children ++ [n] }]
  | b :: rest => (intoLast n rest).map (b :: ·)

/-- Add a node to what the element holds. -/
def push (f : Frame) (n : Node Tag) (offset : Nat) : Except ReadError Frame :=
  if f.isConditional then
    match intoLast n f.children with
    | some children => .ok { f with fresh := false, children }
    | none => .error (.orphanContent offset)
  else .ok { f with fresh := false, children := f.children ++ [n] }

def begin (f : Frame) (branch : Tag) : Frame :=
  { f with fresh := true, children := f.children ++ [.leaf branch] }

/-- Open an element. A condition given with a conditional begins its first branch. -/
def ofTag (tag : Tag) (a : Attributes) (within : Bool) : Frame where
  tag := some tag
  extra := { id := a.get? "id" }
  running := match tag with
    | .conditional | .remove | .replace | .replaceMatch | .replacePayload => within
    | tag => tag.isRunning
  children := match tag, a.bare with
    | .conditional, some c => [.leaf (.onCondition c)]
    | _, _ => []

end Frame

def isBranchName (name : String) : Bool := name == "ElseIf" || name == "Else"

/-- Whether the content of an element ends before the events: at the end of the document, at a
closing tag, or where another branch begins. -/
def endsContent (f : Frame) : List Event → Bool
  | [] | .closing .. :: _ | .fault _ :: _ => true
  | .opening name .. :: _ => f.isConditional && isBranchName name
  | .text .. :: _ => false

/-- The branch that a tag begins. -/
def branchOf (name : String) (a : Attributes) : Except ReadError Tag :=
  if name == "ElseIf" then
    match a.bare with
    | some c => .ok (.onCondition c)
    | none => .error (.missingAttribute "ElseIf" "condition")
  else .ok .fallthrough

/-- Put events together; `top` is the innermost open element, `below` are those around it. -/
def assemble (top : Frame) (below : List Frame) : List Event → Except ReadError (Forest Tag)
  | [] =>
    match top.tag with
    | none => .ok top.children
    | some t => .error (.unclosed t.label)
  | .fault e :: _ => .error e
  | .text chars offset :: rest =>
    if top.running then
      let value := settleBlanks top.fresh (endsContent top rest) chars
      if value.isEmpty then assemble top below rest
      else do assemble (← top.push (.leaf (.text (String.ofList value))) offset) below rest
    else if chars.all isSoftBlank then assemble top below rest
    else .error (.unexpectedText offset)
  | .opening name a selfClosing offset :: rest =>
    if isBranchName name then
      if top.isConditional && selfClosing then do
        assemble (top.begin (← branchOf name a)) below rest
      else .error (.strayBranch name offset)
    else do
      let tag ← tagOf name a offset
      let frame := Frame.ofTag tag a top.running
      if selfClosing then
        assemble (← top.push ⟨tag, frame.extra, frame.children⟩ offset) below rest
      else if maxDepth ≤ below.length then .error (.tooDeep maxDepth)
      else assemble frame (top :: below) rest
  | .closing name offset :: rest =>
    match top.tag, below with
    | some tag, parent :: below =>
      if tag.label = name then do
        assemble (← parent.push ⟨tag, top.extra, top.children⟩ offset) below rest
      else .error (.mismatchedClose tag.label name)
    | _, _ => .error (.mismatchedClose "" name)

def parse (source : String) : Except ReadError (Forest Tag) := do
  assemble {} [] (Event.ofTokens (← scan source))

end WorldMarkup.Markup
