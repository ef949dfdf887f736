import WorldMarkup.World.Error

/-!
What can go wrong when documents are brought together.
-/

set_option autoImplicit false
set_option relaxedAutoImplicit false

namespace WorldMarkup

/-- What is wrong with an edit itself. -/
inductive EditFault
  | strangerInReplace (element : String)
  | withoutMatch
  deriving DecidableEq

def EditFault.message : EditFault → String
  | .strangerInReplace element => "<" ++ element ++ "> inside <Replace>"
  | .withoutMatch => "<Replace> without a match"

/-- Why documents cannot be brought into one form. -/
inductive FormError
  /-- An edit names content that is not there; both are given in short. -/
  | conflict (base edit : String)
  | malformedEdit (fault : EditFault)
  | noInput
  | document (e : DocumentError)
  | tree (e : TreeError)
  deriving DecidableEq

def FormError.message : FormError → String
  | .conflict base edit =>
    "Merge conflict: edit '" ++ edit ++ "' does not align with '" ++ base ++ "'"
  | .malformedEdit fault => "Malformed edit: " ++ fault.message
  | .noInput => "No input documents"
  | .document e => e.message
  | .tree e => e.message

end WorldMarkup
