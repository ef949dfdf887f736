import WorldMarkup.Form.Standardize
import WorldMarkup.World.Expression

/-!
Working on a form: laying one form over another, keeping or taking out parts of every component,
and noting dependencies.
-/

set_option autoImplicit false
set_option relaxedAutoImplicit false

namespace WorldMarkup

namespace Form

/-- Grow declarations again, so that those of one source join. -/
def foldDeclarations (t : Forest Tag) : Except FormError (Forest Tag) :=
  match t with
  | [] => .ok []
  | t => (Forest.worldPaths t).map (Forest.ofPaths worldRules)

/-- Lay a component over the form: what is known of its key comes first. -/
def overlay (f : Form) (c : Component) : Except FormError Form :=
  match f.component? c.key with
  | some existing =>
    if existing.kind = c.kind then
      .ok { f with byKey := putAt c.key (existing.absorb c) f.byKey }
    else .error (.document (.kindConflict c.key existing.kind c.kind))
  | none => .ok (f.put c)

/-- Lay another form over this one. The result is about what the other is about. -/
def merge (f later : Form) : Except FormError Form := do
  let base : Form := { key := later.key, kind := later.kind, byKey := f.byKey, order := f.order }
  let merged ← later.components.foldlM overlay base
  let imports ← foldDeclarations (f.imports ++ later.imports)
  let exports ← foldDeclarations (f.exports ++ later.exports)
  pure { merged.sortOrder with imports, exports }

def mapComponents (change : Forest Tag → Except FormError (Forest Tag)) (f : Form) :
    Except FormError Form := do
  let byKey ← f.byKey.mapM (fun x => do pure (x.1, ← x.2.mapTrees change))
  pure { f with byKey }

def viaOutline (rework : WorldOutline → WorldOutline) (t : Forest Tag) :
    Except FormError (Forest Tag) :=
  match WorldOutline.ofForest t with
  | .ok o => .ok (rework o).forest
  | .error e => .error (.tree e)

def filter (f : Form) (q : WorldQuery) : Except FormError Form :=
  f.mapComponents (viaOutline (fun o => Outline.filter o q))

def prune (f : Form) (q : WorldQuery) : Except FormError Form :=
  f.mapComponents (viaOutline (fun o => Outline.prune o q))

def assignDependencies (f : Form) (extract : String → List String) : Except FormError Form :=
  standardize [Forest.assignDependencies extract f.schema]

end Form

end WorldMarkup
