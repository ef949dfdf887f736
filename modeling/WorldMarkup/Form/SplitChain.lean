import WorldMarkup.Form.Ownership

/-!
Conditionals that reach several fields of a component, or fields and items. Each of these gets a
copy of the conditional, and each copy is given the branches it lacks, as branches without
content, so that it shows the same choice as the whole.
-/

set_option autoImplicit false
set_option relaxedAutoImplicit false

namespace WorldMarkup.SplitChain

open Ownership (slot?)

/-- A field of the component, or the items. -/
abbrev Slot : Type := Option FieldKind

/-- The number of the conditional whose branch, without content, ends the path. -/
def emptyBranch? (p : Path Tag) : Option Nat :=
  match p.reverse with
  | branch :: wrapper :: _ =>
    if wrapper.data = .conditional && branch.data.category = .branch then some wrapper.origin
    else none
  | _ => none

/-- A path that leads into no field and ends at a branch without content. -/
def floating? (kind : EntityKind) (p : Path Tag) : Option Nat :=
  if (slot? kind p).isNone then emptyBranch? p else none

/-- Each conditional on a path, with a slot that it reaches. -/
def reaches (slot : Slot) (p : Path Tag) : List (Nat × Slot) :=
  (List.filter (fun s => s.data = .conditional) p).map (fun s => (s.origin, slot))

/-- A branch of a conditional, and the path down to it. -/
structure Site where
  wrapper : Nat
  branch : Nat
  path : Path Tag
  deriving DecidableEq

/-- The branches on a path; `above` leads to the rest of it. -/
def sitesFrom (above : Path Tag) : Path Tag → List Site
  | w :: b :: rest =>
    let here := if w.data = .conditional then [⟨w.origin, b.origin, above ++ [w, b]⟩] else []
    here ++ sitesFrom (above ++ [w]) (b :: rest)
  | _ => []

def sites (p : Path Tag) : List Site := sitesFrom [] p

/-- A path with the place among the paths that it belongs to. -/
abbrev Ranked : Type := Nat × Path Tag

/-- The path of a branch without content in a slot: down to the branch, then to the entity, then
to the field, as far as the path does not hold them already. -/
def placeholder (kind : EntityKind) (key : String) (target : Option (Step Tag))
    (field : Option (Step Tag)) (p : Path Tag) : Path Tag :=
  let p := if p.any (fun s => s.data.isEntityOf kind key) then p else p ++ target.toList
  if p.any (fun s => s.data.field?.isSome) then p else p ++ field.toList

/-- Give every slot that a conditional reaches the branches it lacks there, each where the branch
first stands. A path that ends at a branch without content belongs to all slots its conditional
reaches, and to the items when there are none. -/
def complete (kind : EntityKind) (key : String) (paths : List (Path Tag)) : List (Path Tag) :=
  let anchored := paths.flatMap (fun p =>
    if (floating? kind p).isSome then [] else reaches (slot? kind p) p)
  let isKept (p : Path Tag) : Bool := match floating? kind p with
    | none => true
    | some w => !(anchored.any (fun r => r.1 == w))
  let adrift := paths.flatMap (fun p =>
    if (floating? kind p).isSome && isKept p then reaches none p else [])
  let reach := (anchored ++ adrift).eraseDups
  let ranked : List Ranked := paths.zipIdx.map (fun x => (x.2, x.1))
  let all : List (Nat × Site) :=
    (ranked.flatMap (fun r => (sites r.2).map (fun s => (r.1, s)))).eraseDupsBy
      (fun a b => a.2.branch == b.2.branch)
  let present : List (Nat × Slot) :=
    (paths.filter isKept).flatMap (fun p => (sites p).map (fun s => (s.branch, slot? kind p)))
  let target := paths.flatten.find? (fun s => s.data.isEntityOf kind key)
  let fieldStep (f : FieldKind) : Option (Step Tag) :=
    (paths.find? (fun p => slot? kind p == some f)).bind
      (fun p => p.find? (fun s => s.data.field? == some f))
  let added : List Ranked := all.flatMap (fun x =>
    ((reach.filter (fun r => r.1 == x.2.wrapper)).filter
      (fun r => !(present.contains (x.2.branch, r.2)))).map
        (fun r => (x.1, placeholder kind key target (r.2.bind fieldStep) x.2.path)))
  (((ranked.filter (fun r => isKept r.2)) ++ added).mergeSort (fun a b => a.1 ≤ b.1)).map Prod.snd

end WorldMarkup.SplitChain
