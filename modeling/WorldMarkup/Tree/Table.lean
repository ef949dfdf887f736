import WorldMarkup.Tree.Fold

/-!
Growing a forest in a flat table. Every node is a row that knows the rows of its children, and a
new node takes the next free row, below the row of the node above it. So one pass from the last
row to the first puts the forest together, each tree being taken out of the table by the row
above it.
-/

set_option autoImplicit false
set_option relaxedAutoImplicit false

namespace WorldMarkup

variable {α κ : Type} [DecidableEq κ]

/-- A node in a table, and the rows of its children in order. -/
structure Row (α : Type) where
  step : Step α
  children : List Nat := []

/-- Nodes in rows, and the rows of the roots in order. -/
structure Table (α : Type) where
  rows : List (Row α) := []
  roots : List Nat := []

namespace Table

def below (t : Table α) : Option Nat → List Nat
  | none => t.roots
  | some i => ((t.rows[i]?).map Row.children).getD []

def setBelow (t : Table α) (children : List Nat) : Option Nat → Table α
  | none => { t with roots := children }
  | some i => { t with rows := t.rows.modify i (fun x => { x with children }) }

/-- Join a step to the node of a row. -/
def join (r : Rules α κ) (t : Table α) (i : Nat) (s : Step α) : Table α :=
  { t with rows := t.rows.modify i (fun x =>
      let (d, e) := r.combine x.step s
      { x with step := ⟨d, e, x.step.origin⟩ }) }

/-- The row of the sibling that an incoming node joins. -/
def partner? (r : Rules α κ) (t : Table α) (siblings : List Nat) (s : Step α) : Option Nat :=
  let backward := siblings.reverse
  (Growth.partner? r s (backward.filterMap (fun i => (t.rows[i]?).map Row.step))).bind
    (fun k => backward[k]?)

/-- Give an incoming node a row, its place among its siblings by rank. -/
def add (r : Rules α κ) (t : Table α) (above : Option Nat) (s : Step α) : Table α :=
  let siblings := t.below above
  let later := Growth.overtaken r s
    (siblings.reverse.filterMap (fun i => (t.rows[i]?).map Row.step))
  setBelow { t with rows := t.rows ++ [⟨s, []⟩] }
    (siblings.insertIdx (siblings.length - later) t.rows.length) above

/-- Lay one path into the table, below a row or from the roots on. -/
def insert (r : Rules α κ) (t : Table α) (above : Option Nat) : Path α → Table α
  | [] => t
  | s :: rest =>
    match t.partner? r (t.below above) s with
    | some i => insert r (t.join r i s) (some i) rest
    | none => insert r (t.add r above s) (some t.rows.length) rest

def ofPaths (r : Rules α κ) (paths : List (Path α)) : Table α :=
  paths.foldl (fun t p => t.insert r none p) {}

/-- Take trees out of their rows: the trees in order, and what is left. -/
def takeOut (built : List (Option (Node α))) : List Nat → Forest α × List (Option (Node α))
  | [] => ([], built)
  | i :: rest =>
    let (trees, left) := takeOut (built.set i none) rest
    ((built[i]?).join.toList ++ trees, left)

def buildRow (built : List (Option (Node α))) (i : Nat) (x : Row α) : List (Option (Node α)) :=
  let (children, left) := takeOut built x.children
  left.set i (some ⟨x.step.data, x.step.extra, children⟩)

/-- The trees that stand in the rows once all are put together, from the last row to the
first. -/
def build (rows : List (Row α)) : List (Option (Node α)) :=
  rows.zipIdx.foldr (fun x built => buildRow built x.2 x.1) (List.replicate rows.length none)

def forest (t : Table α) : Forest α := (takeOut (build t.rows) t.roots).1

end Table

end WorldMarkup
