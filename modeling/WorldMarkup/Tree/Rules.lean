import WorldMarkup.Tree.Path

/-!
How paths grow back into a forest: which nodes count as one, what joining two of them gives, what
a wrapper is, which categories may stand between two nodes that still join, and in which order
the categories of new siblings stand.
-/

set_option autoImplicit false
set_option relaxedAutoImplicit false

namespace WorldMarkup

variable {α κ : Type}

/-- The rules of regrowth, for data of type `α` in categories of type `κ`. -/
structure Rules (α κ : Type) where
  category : α → κ
  /-- Whether an incoming node, second, is the same as one already there, first. -/
  same : α → α → Bool
  /-- What is kept of a node already there, first, and one that joins it. -/
  combine : Step α → Step α → α × Extra
  /-- A wrapper groups branches: it ends no path and joins only its own node. -/
  isWrapper : α → Bool := fun _ => false
  /-- Groups of categories whose siblings may stand in any order. -/
  unordered : List (List κ) := []
  /-- The order of categories among siblings; unlisted ones have no rank. -/
  ranking : List κ := []

namespace Rules

variable [DecidableEq κ]

/-- Whether some group holds both categories. -/
def independent (r : Rules α κ) (a b : κ) : Bool :=
  r.unordered.any (fun g => g.contains a && g.contains b)

def rank? (r : Rules α κ) (c : κ) : Option Nat := r.ranking.findIdx? (fun x => decide (x = c))

/-- The groups and the ranking in writing, each category written by `label`. -/
def describe (r : Rules α κ) (label : κ → String) : String :=
  let list (cs : List κ) : String := "[" ++ ", ".intercalate (cs.map label) ++ "]"
  "TagTreeOptions \x7b order_independence: [" ++ ", ".intercalate (r.unordered.map list) ++
    "], order_sort: " ++ list r.ranking ++ ", .. \x7d"

end Rules

/-- Incoming data wins; of two names the incoming one does, and a name is never lost. -/
def Step.overlay (existing incoming : Step α) : α × Extra :=
  (incoming.data,
    { id := incoming.extra.id.or existing.extra.id, inherited := incoming.extra.inherited })

theorem Step.overlay_self (s : Step α) : s.overlay s = (s.data, s.extra) := by
  cases s with
  | mk d e o => cases e with | mk id inh => cases id <;> rfl

end WorldMarkup
