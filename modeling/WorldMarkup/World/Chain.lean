import WorldMarkup.World.Error

/-!
Choosing the branch of a conditional: statements are tried in order, the first one that holds is
taken; if none holds, the first fallthrough is; else the conditional stays open.
-/

set_option autoImplicit false
set_option relaxedAutoImplicit false

namespace WorldMarkup

/-- The branch that a conditional comes down to. -/
inductive Selection
  | statement (branch : Node Tag)
  | fallthrough (branch : Node Tag)
  | unresolved
  deriving DecidableEq

namespace Selection

def contents : Selection → Forest Tag
  | .statement b | .fallthrough b => b.children
  | .unresolved => []

def isResolved : Selection → Bool
  | .unresolved => false
  | _ => true

end Selection

/-- Choose among branches; `otherwise` is the fallthrough met so far. -/
def selectAmong (holds : String → Bool) (otherwise : Option (Node Tag)) :
    Forest Tag → Except DocumentError Selection
  | [] => .ok (match otherwise with
    | some b => .fallthrough b
    | none => .unresolved)
  | b :: rest =>
    match b.data with
    | .statement s =>
      if holds s.condition then .ok (.statement b) else selectAmong holds otherwise rest
    | .fallthrough => selectAmong holds (otherwise.or (some b)) rest
    | t => .error (.strangerInChain t.label)

/-- Choose the branch of a conditional under an evaluation of its conditions. -/
def Node.select (holds : String → Bool) (n : Node Tag) : Except DocumentError Selection :=
  match n.data with
  | .conditional => selectAmong holds none n.children
  | t => .error (.noConditional t.label)

/-- The conditions looked at while choosing, in order: up to the first that holds. -/
def askedAmong (holds : String → Bool) : Forest Tag → List String
  | [] => []
  | b :: rest =>
    match b.data with
    | .statement s =>
      s.condition :: (if holds s.condition then [] else askedAmong holds rest)
    | _ => askedAmong holds rest

end WorldMarkup
