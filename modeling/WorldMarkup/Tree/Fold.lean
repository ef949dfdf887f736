import WorldMarkup.Tree.Rules

/-!
Growing a forest back from paths. Paths are laid in one after another; each step joins a sibling
that counts as the same node, or stands as a new sibling where its rank puts it.
-/

set_option autoImplicit false
set_option relaxedAutoImplicit false

namespace WorldMarkup

variable {α κ : Type} [DecidableEq κ]

abbrev Growth (α : Type) : Type := Forest (α × Nat)

namespace Growth

def step (n : Node (α × Nat)) : Step α := ⟨n.data.1, n.extra, n.data.2⟩

def forest (g : Growth α) : Forest α := Forest.map Prod.fst g

/-- The sibling of the incoming node's own number, in a list that runs from the last sibling to
the first. -/
def twin? (s : Step α) (backward : List (Step α)) : Option Nat :=
  backward.findIdx? (fun x => x.origin == s.origin)

/-- The nearest sibling that counts as the incoming node, in a list that runs from the last
sibling to the first. The search ends at a sibling whose order against the incoming node
matters. -/
def match? (r : Rules α κ) (s : Step α) : List (Step α) → Option Nat
  | [] => none
  | x :: rest =>
    if !r.isWrapper s.data && !r.isWrapper x.data && r.same x.data s.data then some 0
    else if r.independent (r.category x.data) (r.category s.data) then
      (match? r s rest).map (· + 1)
    else none

/-- The sibling that an incoming node joins, counted from the last. -/
def partner? (r : Rules α κ) (s : Step α) (backward : List (Step α)) : Option Nat :=
  (twin? s backward).or (match? r s backward)

/-- How many of the last siblings rank above the incoming node and so stay behind it. -/
def overtaken (r : Rules α κ) (s : Step α) (backward : List (Step α)) : Nat :=
  match r.rank? (r.category s.data) with
  | none => 0
  | some k =>
    (backward.takeWhile (fun x => match r.rank? (r.category x.data) with
      | some j => decide (k < j)
      | none => false)).length

/-- Lay one path into the forest. -/
def insert (r : Rules α κ) : Path α → Growth α → Growth α
  | [], g => g
  | s :: rest, g =>
    let backward := g.reverse.map step
    match partner? r s backward with
    | some i =>
      g.modify (g.length - 1 - i) (fun n =>
        let (d, e) := r.combine (step n) s
        ⟨(d, n.data.2), e, insert r rest n.children⟩)
    | none =>
      g.insertIdx (g.length - overtaken r s backward)
        ⟨(s.data, s.origin), s.extra, insert r rest []⟩

def ofPaths (r : Rules α κ) (paths : List (Path α)) : Growth α :=
  paths.foldl (fun g p => insert r p g) []

end Growth

def Forest.ofPaths (r : Rules α κ) (paths : List (Path α)) : Forest α :=
  (Growth.ofPaths r paths).forest

end WorldMarkup
