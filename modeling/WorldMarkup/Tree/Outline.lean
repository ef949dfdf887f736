import WorldMarkup.Tree.Fold
import WorldMarkup.Tree.Query

/-!
An outline is a forest taken apart into its paths, together with the rules that put it back. It
is reworked path by path: paths are kept or dropped, steps are taken out, steps change places.
-/

set_option autoImplicit false
set_option relaxedAutoImplicit false

namespace WorldMarkup

variable {α κ : Type}

/-- Paths, and the rules to regrow a forest from them. -/
structure Outline (α κ : Type) where
  rules : Rules α κ
  paths : List (Path α)

namespace Path

/-- The wrappers on these paths, and the branches right below wrappers, by number. -/
def wrappersAndBranches (isWrapper : α → Bool) : Path α → List Nat × List Nat
  | [] => ([], [])
  | s :: rest =>
    let (ws, bs) := wrappersAndBranches isWrapper rest
    if isWrapper s.data then (s.origin :: ws, (rest.head?.map Step.origin).toList ++ bs)
    else (ws, bs)

/-- The branch of a surviving wrapper at which a dropped path may stand in, and the path that
stands in for it. The path is cut below the branch; a branch that is itself a wrapper keeps the
whole path, since no path ends in a wrapper. -/
def standIn? (isWrapper : α → Bool) (wrappers branches : List Nat) :
    Path α → Option (Nat × Path α)
  | [] => none
  | w :: rest =>
    if isWrapper w.data && wrappers.contains w.origin then
      match rest with
      | [] => none
      | b :: _ =>
        if branches.contains b.origin then
          (standIn? isWrapper wrappers branches rest).map (fun (n, p) => (n, w :: p))
        else some (b.origin, w :: (if isWrapper b.data then rest else [b]))
    else (standIn? isWrapper wrappers branches rest).map (fun (n, p) => (n, w :: p))

/-- Keep the wanted paths, and of the others the first that can stand in for each branch in
need; `placed` holds the branches already stood in for. -/
def keepOrStandIn (isWrapper : α → Bool) (wrappers branches : List Nat) (wanted : Path α → Bool) :
    List Nat → List (Path α) → List (Path α)
  | _, [] => []
  | placed, p :: ps =>
    if wanted p then p :: keepOrStandIn isWrapper wrappers branches wanted placed ps
    else match standIn? isWrapper wrappers branches p with
      | none => keepOrStandIn isWrapper wrappers branches wanted placed ps
      | some (b, q) =>
        if placed.contains b then keepOrStandIn isWrapper wrappers branches wanted placed ps
        else q :: keepOrStandIn isWrapper wrappers branches wanted (b :: placed) ps

/-- The wanted paths in order. A wrapper on one of them keeps all its branches: a branch that no
wanted path takes is stood in for by its first path. -/
def filter (isWrapper : α → Bool) (wanted : Path α → Bool) (paths : List (Path α)) :
    List (Path α) :=
  let live := (paths.filter wanted).map (wrappersAndBranches isWrapper)
  keepOrStandIn isWrapper (live.flatMap Prod.fst).eraseDups (live.flatMap Prod.snd).eraseDups
    wanted [] paths

def dropMarked (q : Query α) (p : Path α) : Path α :=
  (p.zip (q.marks p)).filterMap (fun (s, marked) => if marked then none else some s)

def prune (q : Query α) (paths : List (Path α)) : List (Path α) :=
  (paths.map (dropMarked q)).filter (fun p => !p.isEmpty)

/-- For each step, the place of the first query that marks it. -/
def priorities (qs : List (Query α)) (p : Path α) : List (Option Nat) :=
  let masks := qs.map (fun q => q.marks p)
  (List.range p.length).map (fun i => masks.findIdx? (fun m => m.getD i false))

/-- Between the first and the last marked step, bring the marked steps to the front, those of
earlier queries first; otherwise the order stays. -/
def reorder (qs : List (Query α)) (p : Path α) : Path α :=
  let ranked := p.zip (priorities qs p)
  let unmarked (x : Step α × Option Nat) : Bool := x.2.isNone
  let above := ranked.takeWhile unmarked
  let below := (ranked.reverse.takeWhile unmarked).reverse
  let window := (ranked.drop above.length).take (ranked.length - above.length - below.length)
  let chosen := (List.range qs.length).flatMap (fun k => window.filter (fun x => x.2 == some k))
  (above ++ chosen ++ window.filter unmarked ++
    ranked.drop (above.length + window.length)).map Prod.fst

end Path

namespace Outline

/-- Take a forest apart, unless it has a fault. -/
def ofForest (rules : Rules α κ) (t : Forest α) : Except TreeError (Outline α κ) :=
  match Forest.fault? rules.isWrapper t with
  | some fault => .error fault
  | none => .ok ⟨rules, Forest.paths t⟩

/-- Take paths as they are, unless one has a fault. -/
def ofPaths (rules : Rules α κ) (paths : List (Path α)) : Except TreeError (Outline α κ) :=
  match paths.findSome? (Path.fault? rules.isWrapper) with
  | some fault => .error fault
  | none => .ok ⟨rules, paths⟩

/-- Keep the paths that answer the query, and what wrappers on them need. -/
def filter (o : Outline α κ) (q : Query α) : Outline α κ :=
  { o with paths := Path.filter o.rules.isWrapper q.hits o.paths }

def prune (o : Outline α κ) (q : Query α) : Outline α κ :=
  { o with paths := Path.prune q o.paths }

def reorder (o : Outline α κ) (qs : List (Query α)) : Outline α κ :=
  { o with paths := o.paths.map (Path.reorder qs) }

def rankSiblings (o : Outline α κ) (order : List κ) : Outline α κ :=
  { o with rules := { o.rules with ranking := order } }

def forest [DecidableEq κ] (o : Outline α κ) : Forest α := Forest.ofPaths o.rules o.paths

end Outline

end WorldMarkup
