import WorldMarkup.Proofs.Tree.Paths
import WorldMarkup.Proofs.World.Content
import WorldMarkup.Form.Ownership

/-!
What a field of a component holds of a document: the content of that field wherever the component
stands, and the conditionals around it. A conditional is taken along when it leads to the field,
with all branches through which the component has content. Main statements: a forest leads to the
field exactly when one of its paths does.
-/

set_option autoImplicit false
set_option relaxedAutoImplicit false

namespace WorldMarkup

/-- A field of a component. -/
structure Address where
  kind : EntityKind
  key : String
  field : FieldKind

/-- How far a walk from the top has come: the nearest entity above is another one or none, it is
the component, or the field is entered. -/
inductive Place
  | outside | owned | within
  deriving DecidableEq

namespace Address

variable (a : Address)

def isTarget (t : Tag) : Bool := t.isEntityOf a.kind a.key

/-- Where a walk comes to below a tag; nothing when it can no longer reach the field. -/
def next? (place : Place) (t : Tag) : Option Place :=
  match place, t with
  | .within, _ => some .within
  | _, .conditional | _, .statement _ | _, .fallthrough => some place
  | _, .entity e => some (if a.isTarget (.entity e) then .owned else .outside)
  | .owned, .field g => if g = a.field then some .within else none
  | _, _ => none

/-- Whether a path enters the field. -/
def leadsPath (place : Place) : Path Tag → Bool
  | [] => place = .within
  | s :: rest =>
    match a.next? place s.data with
    | none => false
    | some below => leadsPath below rest

mutual

/-- Whether some path of the tree enters the field. -/
def leadsNode (place : Place) : Node Tag → Bool
  | ⟨t, _, cs⟩ =>
    match a.next? place t with
    | none => false
    | some .within => true
    | some below => leads below cs

/-- Whether some path of the forest enters the field. -/
def leads (place : Place) : Forest Tag → Bool
  | [] => false
  | n :: rest => leadsNode place n || leads place rest

end

/-- Whether a path shows more of the component than its bare presence; `entered` tells that the
component stands above. -/
def touchesPath (entered : Bool) : Path Tag → Bool
  | [] => entered
  | s :: rest =>
    if a.isTarget s.data then !rest.isEmpty && touchesPath true rest
    else touchesPath entered rest

mutual

/-- Whether the component has content on some path of the tree outside of imports and exports. -/
def touchesNode (entered : Bool) : Node Tag → Bool
  | ⟨t, _, cs⟩ =>
    !Standardize.isDeclaration t &&
      (if a.isTarget t then touches true cs
      else if cs.isEmpty then entered
      else touches entered cs)

/-- Whether the component has content on some path of the forest. -/
def touches (entered : Bool) : Forest Tag → Bool
  | [] => false
  | n :: rest => touchesNode entered n || touches entered rest

end

mutual

/-- The paths below the field, for each path of a tree that shows something in the field: of those
that enter it what they hold there, with the conditionals above, and a bare branch for each other
branch of these conditionals through which the component has content. -/
def tailsNode (first : Nat) (place : Place) : Node Tag → List (Path Tag)
  | ⟨t, e, cs⟩ =>
    match a.next? place t with
    | none => []
    | some below =>
      if t = .conditional then
        if a.leadsNode place ⟨t, e, cs⟩ then
          (tailsBranches (first + 1) place cs).map (⟨t, e, first⟩ :: ·)
        else []
      else
        let tails := tails (first + 1) below cs
        let tails := if below = .within && tails.isEmpty then [[]] else tails
        if place = .within then tails.map (⟨t, e, first⟩ :: ·) else tails

/-- The paths below the field for a forest. -/
def tails (first : Nat) (place : Place) : Forest Tag → List (Path Tag)
  | [] => []
  | n :: rest => tailsNode first place n ++ tails (first + n.size) place rest

/-- The paths below the field for the branches of a conditional that leads to it. -/
def tailsBranches (first : Nat) (place : Place) : Forest Tag → List (Path Tag)
  | [] => []
  | ⟨t, e, cs⟩ :: rest =>
    (if a.leads place cs then (tails (first + 1) place cs).map (⟨t, e, first⟩ :: ·)
    else if a.touchesNode (place != .outside) ⟨t, e, cs⟩ then [[⟨t, e, first⟩]]
    else []) ++
      tailsBranches (first + Node.size ⟨t, e, cs⟩) place rest

end

end Address

def Node.absorb (n m : Node Tag) : Node Tag :=
  let (t, e) := Step.settle ⟨n.data, n.extra, 0⟩ ⟨m.data, m.extra, 0⟩
  ⟨t, e, n.children ++ m.children⟩

/-- Put a branch behind others; it joins the last of them if both stand under one condition. -/
def Forest.joinBranch (done : Forest Tag) (b : Node Tag) : Forest Tag :=
  match done.getLast? with
  | some last =>
    if last.data.same b.data then done.dropLast ++ [last.absorb b] else done ++ [b]
  | none => [b]

/-- Join neighbouring branches under one condition. -/
def Forest.joinBranches (bs : Forest Tag) : Forest Tag := bs.foldl Forest.joinBranch []

namespace Address

variable (a : Address)

mutual

/-- What the field holds of a tree. -/
def excerptNode (place : Place) : Node Tag → Forest Tag
  | ⟨t, e, cs⟩ =>
    match a.next? place t with
    | none => []
    | some below =>
      if t = .conditional then
        if a.leadsNode place ⟨t, e, cs⟩ then
          [⟨t, e, Forest.joinBranches (excerptBranches place cs)⟩]
        else []
      else if place = .within then [⟨t, e, excerpt .within cs⟩]
      else excerpt below cs

/-- What the field holds of a forest. -/
def excerpt (place : Place) : Forest Tag → Forest Tag
  | [] => []
  | n :: rest => excerptNode place n ++ excerpt place rest

/-- What the field holds of branches: those that lead to it with their content there, and of the
others those through which the component has content. -/
def excerptBranches (place : Place) : Forest Tag → Forest Tag
  | [] => []
  | ⟨t, e, cs⟩ :: rest =>
    (if a.leads place cs then [⟨t, e, excerpt place cs⟩]
    else if a.touchesNode (place != .outside) ⟨t, e, cs⟩ then [⟨t, e, []⟩]
    else []) ++
      excerptBranches place rest

end

variable {a}

theorem next?_within (t : Tag) : a.next? .within t = some .within := by
  simp [next?]

theorem leadsPath_within (p : Path Tag) : a.leadsPath .within p = true := by
  induction p with
  | nil => simp [leadsPath]
  | cons s p ih => simp [leadsPath, next?_within, ih]

theorem leads_iff {t : Forest Tag} {place : Place} (first : Nat) :
    a.leads place t = true ↔ ∃ p ∈ Forest.pathsFrom first t, a.leadsPath place p = true := by
  induction t using Forest.induction generalizing place first with
  | nil => simp [leads, Forest.pathsFrom]
  | cons t e cs rest hcs hrest =>
    rw [Forest.exists_path_cons, ← hrest, leads, Bool.or_eq_true]
    refine or_congr_left ?_
    rw [leadsNode]
    rcases hnext : a.next? place t with _ | below
    · simp [leadsPath, hnext]
    · have hpath (p : Path Tag) :
          a.leadsPath place (⟨t, e, first⟩ :: p) = a.leadsPath below p := by
        simp [leadsPath, hnext]
      simp only [hpath]
      by_cases hwithin : below = .within
      · subst hwithin
        by_cases hnil : cs = []
        · simp [hnil, leadsPath]
        · obtain ⟨p, hp⟩ := List.exists_mem_of_ne_nil _ (Forest.pathsFrom_ne_nil hnil (first + 1))
          simp only [leadsPath_within, hnil, if_false, and_true, true_iff]
          exact ⟨p, hp⟩
      · have hnode : (match some below with
            | none => false
            | some .within => true
            | some below => a.leads below cs) = a.leads below cs := by
          cases below <;> first | rfl | exact absurd rfl hwithin
        rw [hnode]
        by_cases hnil : cs = []
        · simp [hnil, leads, leadsPath, hwithin]
        · rw [if_neg hnil]
          exact hcs (first + 1)

/-- The component has content in a forest when it has on one of its paths outside of imports and
exports. -/
theorem touches_iff {t : Forest Tag} {entered : Bool} (first : Nat) :
    a.touches entered t = true ↔ ∃ p ∈ Forest.pathsFrom first t,
      (∀ s ∈ p, Standardize.isDeclaration s.data = false) ∧ a.touchesPath entered p = true := by
  induction t using Forest.induction generalizing entered first with
  | nil => simp [touches, Forest.pathsFrom]
  | cons t e cs rest hcs hrest =>
    rw [Forest.exists_path_cons, ← hrest, touches, Bool.or_eq_true]
    refine or_congr_left ?_
    rw [touchesNode]
    by_cases hnil : cs = []
    · subst hnil
      by_cases htarget : a.isTarget t = true <;>
        simp [htarget, touches, touchesPath]
    · have hempty : cs.isEmpty = false := by simpa using hnil
      have hne (p : Path Tag) (hp : p ∈ Forest.pathsFrom (first + 1) cs) : p.isEmpty = false := by
        cases p with
        | nil => exact absurd hp (Forest.nil_notMem_pathsFrom cs (first + 1))
        | cons => rfl
      simp only [hnil, if_false, hempty, Bool.false_eq_true, List.forall_mem_cons]
      by_cases htarget : a.isTarget t = true
      · simp only [htarget, if_true, Bool.and_eq_true, Bool.not_eq_true', hcs (first + 1),
          touchesPath]
        constructor
        · rintro ⟨hd, p, hp, hfree, htouch⟩
          exact ⟨p, hp, ⟨hd, hfree⟩, hne p hp, htouch⟩
        · rintro ⟨p, hp, ⟨hd, hfree⟩, -, htouch⟩
          exact ⟨hd, p, hp, hfree, htouch⟩
      · have htarget : a.isTarget t = false := by simpa using htarget
        simp only [htarget, Bool.false_eq_true, if_false, Bool.and_eq_true, Bool.not_eq_true',
          hcs (first + 1), touchesPath]
        constructor
        · rintro ⟨hd, p, hp, hfree, htouch⟩
          exact ⟨p, hp, ⟨hd, hfree⟩, htouch⟩
        · rintro ⟨p, hp, ⟨hd, hfree⟩, htouch⟩
          exact ⟨hd, p, hp, hfree, htouch⟩

end Address

end WorldMarkup
