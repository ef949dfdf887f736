import WorldMarkup.World.Identity

/-!
The paths that belong to a component. A path belongs to the nearest entity above its end; the
conditionals above that entity are taken along. A path that runs on into an entity within leaves
a bare reference to it.
-/

set_option autoImplicit false
set_option relaxedAutoImplicit false

namespace WorldMarkup

def Tag.isChain : Tag → Bool
  | .conditional | .statement _ | .fallthrough => true
  | _ => false

namespace Ownership

variable {α : Type}

/-- Split a list at the last item that passes the test. -/
def splitAtLast? (p : α → Bool) : List α → Option (List α × α × List α)
  | [] => none
  | x :: rest =>
    match splitAtLast? p rest with
    | some (before, y, after) => some (x :: before, y, after)
    | none => if p x then some ([], x, rest) else none

/-- What follows the target on a path: all of it, or up to a reference to the first entity
within. -/
def untilNested : Path Tag → Path Tag
  | [] => []
  | s :: rest =>
    if s.data.entity?.isSome then [⟨s.data.withoutSource, {}, s.origin⟩]
    else s :: untilNested rest

/-- A content path as the component sees it; nothing when the path does not reach it. A path that
ends at the component says no more than that it is there. -/
def ownedPath? (kind : EntityKind) (key : String) (p : Path Tag) : Option (Path Tag) :=
  match splitAtLast? (fun s => s.data.isEntityOf kind key) p with
  | none => none
  | some (above, target, below) =>
    if below.isEmpty then some [target]
    else some (above.filter (fun s => s.data.isChain) ++ target :: untilNested below)

def slot? (kind : EntityKind) (p : Path Tag) : Option FieldKind :=
  p.findSome? (fun s => s.data.field?.filter kind.hasField)

end Ownership

end WorldMarkup
