import WorldMarkup.World.Tag

/-!
Walks over a world document in preorder: one that only looks, and one that changes what it
meets. A walk is given by hooks for the tags it cares for; the others are passed over.
-/

set_option autoImplicit false
set_option relaxedAutoImplicit false

namespace WorldMarkup

/-- A walk that only looks and gathers a state. Computed values and texts have hooks of their
own; every other entity goes to the entity hook. -/
structure Observer (σ : Type) where
  entity : Entity → Extra → σ → σ := fun _ _ s => s
  statement : Statement → σ → σ := fun _ s => s
  computed : Computed → σ → σ := fun _ s => s
  text : String → σ → σ := fun _ s => s

def Observer.observe {σ : Type} (o : Observer σ) (t : Tag) (e : Extra) (s : σ) : σ :=
  match t with
  | .statement x => o.statement x s
  | .entity (.computed c) => o.computed c s
  | .text value => o.text value s
  | .entity x => o.entity x e s
  | _ => s

def Observer.walk {σ : Type} (o : Observer σ) (s : σ) (t : Forest Tag) : σ :=
  (Forest.preorder t).foldl (fun s x => o.observe x.1 x.2 s) s

/-- A walk that changes what it meets and hands a state along. -/
structure Editor (σ : Type) where
  statement : Statement → σ → Statement × σ := fun x s => (x, s)
  computed : Computed → σ → Computed × σ := fun c s => (c, s)
  other : Tag → Extra → σ → (Tag × Extra) × σ := fun t e s => ((t, e), s)

def Editor.change {σ : Type} (w : Editor σ) (s : σ) (t : Tag) (e : Extra) : (Tag × Extra) × σ :=
  match t with
  | .statement x => let y := w.statement x s; ((.statement y.1, e), y.2)
  | .entity (.computed c) => let y := w.computed c s; ((.entity (.computed y.1), e), y.2)
  | t => w.other t e s

def Editor.walk {σ : Type} (w : Editor σ) (s : σ) (t : Forest Tag) : Forest Tag × σ :=
  Forest.mapAccum w.change s t

end WorldMarkup
