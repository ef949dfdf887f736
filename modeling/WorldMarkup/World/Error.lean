import WorldMarkup.World.Tag
import WorldMarkup.Tree.Path

/-!
What can be wrong with a document.
-/

set_option autoImplicit false
set_option relaxedAutoImplicit false

namespace WorldMarkup

/-- Why a document is refused. Elements are given by their names. -/
inductive DocumentError
  | disallowedChild (parent child : String)
  | missingProperty (element property : String)
  | kindConflict (key : String) (first second : EntityKind)
  | invalidRoot (element : String)
  | tooDeep (limit : Nat)
  /-- A branch is to be chosen of something else than a conditional. -/
  | noConditional (element : String)
  /-- A conditional holds something else than branches. -/
  | strangerInChain (element : String)
  /-- A conditional to be printed holds something else than branches. -/
  | strangerUnderConditional (element : String)
  /-- A component is to be made of something else than an entity. -/
  | noEntity (element : String)
  /-- The paths of an entity grew into no tree of it. -/
  | noRoot (kind : EntityKind) (key : String)
  deriving DecidableEq

def DocumentError.message : DocumentError → String
  | .disallowedChild parent child => "<" ++ child ++ "> is not allowed inside <" ++ parent ++ ">"
  | .missingProperty element property =>
    "<" ++ element ++ "> is missing required property '" ++ property ++ "'"
  | .kindConflict key first second =>
    "Key '" ++ key ++ "' is declared as both " ++ first.label ++ " and " ++ second.label
  | .invalidRoot element => "Invalid root <" ++ element ++ ">: expected <Asset> or <Character>"
  | .tooDeep limit => "Maximum nesting depth (" ++ toString limit ++ ") exceeded"
  | .noConditional element => "Invariant violation: branch selection on <" ++ element ++ ">"
  | .strangerInChain element =>
    "Invariant violation: <" ++ element ++ "> inside a conditional chain"
  | .strangerUnderConditional element =>
    "Invariant violation: <" ++ element ++ "> is not a branch of <If>"
  | .noEntity element => "Invariant violation: <" ++ element ++ "> is not an entity"
  | .noRoot kind key =>
    "Invariant violation: no <" ++ kind.label ++ "> root folded for '" ++ key ++ "'"

end WorldMarkup
