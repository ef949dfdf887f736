import WorldMarkup.Tree.Basic

/-!
A forest as its paths: one for each leaf, from the root down to it. Every step of a path carries
the number of the node it came from, counted in preorder, so that two paths through one node can
be told from paths through two nodes that look alike.
-/

set_option autoImplicit false
set_option relaxedAutoImplicit false

namespace WorldMarkup

variable {α : Type}

/-- A node as a path passes through it. -/
structure Step (α : Type) where
  data : α
  extra : Extra := {}
  /-- The number of the node this step came from. -/
  origin : Nat
  deriving DecidableEq

abbrev Path (α : Type) : Type := List (Step α)

/-- Why a forest or a list of paths cannot be worked on. -/
inductive TreeError
  | wrapperAtEnd (depth : Nat)
  | tooDeep (limit : Nat)
  deriving DecidableEq

def TreeError.message : TreeError → String
  | .wrapperAtEnd depth => "Wrapper node at depth " ++ toString depth ++ " has no children"
  | .tooDeep limit => "Maximum tree depth (" ++ toString limit ++ ") exceeded"

mutual

/-- The paths of a tree whose root has number `first`. -/
def Node.paths (first : Nat) : Node α → List (Path α)
  | ⟨d, e, cs⟩ =>
    if cs.isEmpty then [[⟨d, e, first⟩]]
    else (Forest.pathsFrom (first + 1) cs).map (⟨d, e, first⟩ :: ·)

def Forest.pathsFrom (first : Nat) : Forest α → List (Path α)
  | [] => []
  | n :: rest => n.paths first ++ Forest.pathsFrom (first + n.size) rest

end

def Forest.paths (t : Forest α) : List (Path α) := Forest.pathsFrom 0 t

mutual

/-- The first fault of a tree in preorder, its root standing at `depth`: a node beyond the depth
limit, or a wrapper without children. -/
def Node.fault? (isWrapper : α → Bool) (depth : Nat) : Node α → Option TreeError
  | ⟨d, _, cs⟩ =>
    if maxDepth ≤ depth then some (.tooDeep maxDepth)
    else if cs.isEmpty then if isWrapper d then some (.wrapperAtEnd depth) else none
    else Forest.faultAt? isWrapper (depth + 1) cs

/-- The first fault of a forest in preorder, its roots standing at `depth`. -/
def Forest.faultAt? (isWrapper : α → Bool) (depth : Nat) : Forest α → Option TreeError
  | [] => none
  | n :: rest => (n.fault? isWrapper depth).or (Forest.faultAt? isWrapper depth rest)

end

def Forest.fault? (isWrapper : α → Bool) (t : Forest α) : Option TreeError :=
  Forest.faultAt? isWrapper 0 t

/-- The fault of a single path: more steps than there are levels, or a wrapper at its end. -/
def Path.fault? (isWrapper : α → Bool) (p : Path α) : Option TreeError :=
  if maxDepth < p.length then some (.tooDeep maxDepth)
  else match p.getLast? with
    | some s => if isWrapper s.data then some (.wrapperAtEnd (p.length - 1)) else none
    | none => none

/-- Gather the paths that start at one node, the groups in order of first appearance. Paths
without steps belong to no group. -/
def Path.groupByRoot (paths : List (Path α)) : List (List (Path α)) :=
  let roots := (paths.filterMap (fun p => p.head?.map Step.origin)).eraseDups
  roots.map (fun r => paths.filter (fun p => p.head?.map Step.origin == some r))

end WorldMarkup
