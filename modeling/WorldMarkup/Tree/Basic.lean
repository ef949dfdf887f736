/-!
Ordered forests of labelled nodes. A node holds its data, what rides along with it, and its
children in order. Main statements: equality of forests is decidable, and two forests have the
same shape exactly when they agree after their extras are cleared.
-/

set_option autoImplicit false
set_option relaxedAutoImplicit false

namespace WorldMarkup

def maxDepth : Nat := 200

/-- What rides along with the data of a node: a stable name, and the mark of content that came
from a base definition. -/
structure Extra where
  id : Option String := none
  inherited : Bool := false
  deriving DecidableEq, Inhabited

namespace Extra

def named (id : String) : Extra := { id := some id }

def ofBase : Extra := { inherited := true }

def isEmpty (e : Extra) : Bool := e.id.isNone && !e.inherited

end Extra

/-- A node of an ordered tree. -/
structure Node (α : Type) where
  data : α
  extra : Extra := {}
  children : List (Node α) := []
  deriving Inhabited

abbrev Forest (α : Type) : Type := List (Node α)

variable {α β : Type}

namespace Node

def leaf (data : α) : Node α := ⟨data, {}, []⟩

def branch (data : α) (children : Forest α) : Node α := ⟨data, {}, children⟩

def isLeaf (n : Node α) : Bool := n.children.isEmpty

end Node

theorem Forest.induction {motive : Forest α → Prop} (nil : motive [])
    (cons : ∀ d e cs rest, motive cs → motive rest → motive (⟨d, e, cs⟩ :: rest)) :
    ∀ t : Forest α, motive t
  | [] => nil
  | ⟨d, e, cs⟩ :: rest =>
    cons d e cs rest (Forest.induction nil cons cs) (Forest.induction nil cons rest)

mutual

def Node.size : Node α → Nat
  | ⟨_, _, cs⟩ => 1 + Forest.size cs

def Forest.size : Forest α → Nat
  | [] => 0
  | n :: rest => n.size + Forest.size rest

end

mutual

def Node.depth : Node α → Nat
  | ⟨_, _, cs⟩ => 1 + Forest.depth cs

def Forest.depth : Forest α → Nat
  | [] => 0
  | n :: rest => max n.depth (Forest.depth rest)

end

mutual

def Node.map (f : α → β) : Node α → Node β
  | ⟨d, e, cs⟩ => ⟨f d, e, Forest.map f cs⟩

def Forest.map (f : α → β) : Forest α → Forest β
  | [] => []
  | n :: rest => n.map f :: Forest.map f rest

end

mutual

def Node.bare : Node α → Node α
  | ⟨d, _, cs⟩ => ⟨d, {}, Forest.bare cs⟩

def Forest.bare : Forest α → Forest α
  | [] => []
  | n :: rest => n.bare :: Forest.bare rest

end

mutual

def Node.preorder : Node α → List (α × Extra)
  | ⟨d, e, cs⟩ => (d, e) :: Forest.preorder cs

def Forest.preorder : Forest α → List (α × Extra)
  | [] => []
  | n :: rest => n.preorder ++ Forest.preorder rest

end

mutual

/-- Change data and extra of every node of a tree in preorder, handing a state along. -/
def Node.mapAccum {σ : Type} (f : σ → α → Extra → (α × Extra) × σ) (s : σ) :
    Node α → Node α × σ
  | ⟨d, e, cs⟩ =>
    let x := f s d e
    let ys := Forest.mapAccum f x.2 cs
    (⟨x.1.1, x.1.2, ys.1⟩, ys.2)

def Forest.mapAccum {σ : Type} (f : σ → α → Extra → (α × Extra) × σ) (s : σ) :
    Forest α → Forest α × σ
  | [] => ([], s)
  | n :: rest =>
    let x := n.mapAccum f s
    let ys := Forest.mapAccum f x.2 rest
    (x.1 :: ys.1, ys.2)

end

mutual

private def nodeEq [DecidableEq α] : Node α → Node α → Bool
  | ⟨d, e, cs⟩, ⟨d', e', cs'⟩ => d = d' && e = e' && forestEq cs cs'

private def forestEq [DecidableEq α] : Forest α → Forest α → Bool
  | [], [] => true
  | n :: rest, n' :: rest' => nodeEq n n' && forestEq rest rest'
  | _, _ => false

end

private theorem forestEq_iff [DecidableEq α] (t : Forest α) :
    ∀ u : Forest α, forestEq t u = true ↔ t = u := by
  induction t using Forest.induction with
  | nil => intro u; cases u <;> simp [forestEq]
  | cons d e cs rest hc hr =>
    intro u
    cases u with
    | nil => simp [forestEq]
    | cons m us => cases m; simp [forestEq, nodeEq, hc, hr, and_assoc]

instance [DecidableEq α] : DecidableEq (Node α) := fun n m =>
  decidable_of_iff (nodeEq n m = true) (by
    cases n; cases m; simp [nodeEq, forestEq_iff, and_assoc])

mutual

private def nodeAlike [BEq α] : Node α → Node α → Bool
  | ⟨d, _, cs⟩, ⟨d', _, cs'⟩ => d == d' && Forest.sameShape cs cs'

def Forest.sameShape [BEq α] : Forest α → Forest α → Bool
  | [], [] => true
  | n :: rest, n' :: rest' => nodeAlike n n' && Forest.sameShape rest rest'
  | _, _ => false

end

theorem Forest.sameShape_iff [DecidableEq α] (t : Forest α) :
    ∀ u : Forest α, Forest.sameShape t u = true ↔ Forest.bare t = Forest.bare u := by
  induction t using Forest.induction with
  | nil => intro u; cases u <;> simp [Forest.sameShape, Forest.bare]
  | cons d e cs rest hc hr =>
    intro u
    cases u with
    | nil => simp [Forest.sameShape, Forest.bare]
    | cons m us =>
      cases m
      simp [Forest.sameShape, nodeAlike, Forest.bare, Node.bare, hc, hr]

theorem Forest.map_eq (f : α → β) (t : Forest α) : Forest.map f t = List.map (Node.map f) t := by
  induction t with
  | nil => rfl
  | cons n rest ih => simp [Forest.map, ih]

theorem Forest.map_map {γ : Type} (f : α → β) (g : β → γ) (t : Forest α) :
    Forest.map g (Forest.map f t) = Forest.map (fun a => g (f a)) t := by
  induction t using Forest.induction with
  | nil => rfl
  | cons d e cs rest hcs hrest =>
    simp only [Forest.map, Node.map, hcs, hrest]

theorem Forest.preorder_append (t u : Forest α) :
    Forest.preorder (t ++ u) = Forest.preorder t ++ Forest.preorder u := by
  induction t with
  | nil => rfl
  | cons n t ih => simp [Forest.preorder, ih]

theorem Forest.preorder_cons (d : α) (e : Extra) (cs rest : Forest α) :
    Forest.preorder (⟨d, e, cs⟩ :: rest) =
      (d, e) :: (Forest.preorder cs ++ Forest.preorder rest) := rfl

theorem Forest.preorder_map (f : α → β) (t : Forest α) :
    Forest.preorder (Forest.map f t) = (Forest.preorder t).map (fun x => (f x.1, x.2)) := by
  induction t using Forest.induction with
  | nil => rfl
  | cons d e cs rest hcs hrest =>
    rw [Forest.map, Node.map, preorder_cons, preorder_cons, hcs, hrest, List.map_cons,
      List.map_append]

end WorldMarkup
