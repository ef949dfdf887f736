import WorldMarkup.World.Grammar

/-!
Where the nodes of a document stand, and what the check of a document says of them. A spot is a
node with the tags above it; whether it keeps the grammar is told from these alone. Main statement:
a document is accepted exactly when its roots are containers and every spot is sound, and a refused
one is refused for its last strange root, or else for the first spot in preorder that is not sound.
-/

set_option autoImplicit false
set_option relaxedAutoImplicit false

namespace WorldMarkup

/-! ### Spots -/

/-- A node where it stands: `above` holds the tags above it, from its parent up to its root. -/
structure Spot where
  above : List Tag
  node : Node Tag

mutual

def Node.spots (above : List Tag) : Node Tag → List Spot
  | ⟨t, e, cs⟩ => ⟨above, ⟨t, e, cs⟩⟩ :: Forest.spots (t :: above) cs

def Forest.spots (above : List Tag) : Forest Tag → List Spot
  | [] => []
  | n :: rest => n.spots above ++ Forest.spots above rest

end

theorem Forest.spots_cons (above : List Tag) (t : Tag) (e : Extra) (cs rest : Forest Tag) :
    Forest.spots above (⟨t, e, cs⟩ :: rest) =
      ⟨above, ⟨t, e, cs⟩⟩ :: (Forest.spots (t :: above) cs ++ Forest.spots above rest) := rfl

namespace Tag

/-- Of the tags above a node, the nearest that is a root or not transparent. -/
def contextOf? : List Tag → Option Tag
  | [] => none
  | [root] => some root
  | t :: above => if t.isTransparent then contextOf? above else some t

theorem contextOf?_below (t parent : Tag) (above : List Tag) :
    contextOf? (t :: parent :: above) =
      if t.isTransparent then contextOf? (parent :: above) else some t := rfl

theorem exists_contextOf? (parent : Tag) (above : List Tag) :
    ∃ context, contextOf? (parent :: above) = some context := by
  induction above generalizing parent with
  | nil => exact ⟨parent, rfl⟩
  | cons t above ih =>
    rw [contextOf?_below]
    split
    · exact ih t
    · exact ⟨parent, rfl⟩

/-! ### Properties that must be given -/

/-- The tag lacks a property that its element must have; both are given by their names. A
condition of blanks is none. -/
inductive Lacks : Tag → String → String → Prop
  | entity {e : Entity} (empty : e.key = "") : Lacks (.entity e) e.kind.label "key"
  | asset : Lacks (.asset "") "Asset" "key"
  | exit {key : String} : Lacks (.exit key "") "Exit" "to"
  | position {x y : Int64} : Lacks (.position "" x y) "Position" "room"
  | link : Lacks (.link "") "Link" "to"
  | statement {s : Statement} (blank : ∀ c ∈ s.condition.toList, Text.isBlank c = true) :
    Lacks (.statement s) "If" "condition"
  | imported : Lacks (.imported "") "Import" "from"

theorem missing?_eq_some {t : Tag} {fault : DocumentError} :
    t.missing? = some fault ↔
      ∃ element property, t.Lacks element property ∧ fault = .missingProperty element property := by
  constructor
  · intro h
    cases t <;> simp only [missing?, Option.ite_none_right_eq_some, Option.some.injEq,
      String.isEmpty_iff, reduceCtorEq] at h
    case entity e => exact ⟨_, _, .entity h.1, h.2.symm⟩
    case statement s => exact ⟨_, _, .statement (List.all_eq_true.1 h.1), h.2.symm⟩
    case asset => exact ⟨_, _, h.1 ▸ .asset, h.2.symm⟩
    case exit => exact ⟨_, _, h.1 ▸ .exit, h.2.symm⟩
    case position => exact ⟨_, _, h.1 ▸ .position, h.2.symm⟩
    case link => exact ⟨_, _, h.1 ▸ .link, h.2.symm⟩
    case imported => exact ⟨_, _, h.1 ▸ .imported, h.2.symm⟩
  · rintro ⟨element, property, lacks, rfl⟩
    cases lacks with
    | entity empty => simp [missing?, empty, label]
    | statement blank =>
      have blank : Text.isBlankText _ = true := List.all_eq_true.2 blank
      simp [missing?, blank]
    | _ => rfl

theorem missing?_eq_none {t : Tag} :
    t.missing? = none ↔ ∀ element property, ¬ t.Lacks element property := by
  rw [Option.eq_none_iff_forall_ne_some]
  constructor
  · exact fun h element property lacks => h _ (missing?_eq_some.2 ⟨_, _, lacks, rfl⟩)
  · intro h fault some
    obtain ⟨element, property, lacks, -⟩ := missing?_eq_some.1 some
    exact h element property lacks

end Tag

/-! ### Sound spots and refused ones -/

namespace Spot

variable {x : Spot} {fault : DocumentError}

/-- A spot keeps the grammar: it is not too deep, has all its properties, and may stand below its
parent. -/
structure IsSound (x : Spot) : Prop where
  shallow : x.above.length < maxDepth
  complete : ∀ element property, ¬ x.node.data.Lacks element property
  allowed : ∀ parent context, x.above.head? = some parent → Tag.contextOf? x.above = some context →
    parent.allowsChild context x.node.data = true

/-- What a spot is refused for: its depth before its properties, and these before its place. A
conditional or a replacement is blamed for what it holds itself. -/
inductive IsRefused (x : Spot) : DocumentError → Prop
  | deep (h : maxDepth ≤ x.above.length) : IsRefused x (.tooDeep maxDepth)
  | lacking {element property : String} (shallow : x.above.length < maxDepth)
    (h : x.node.data.Lacks element property) : IsRefused x (.missingProperty element property)
  | misplaced {parent context : Tag} (shallow : x.above.length < maxDepth)
    (complete : ∀ element property, ¬ x.node.data.Lacks element property)
    (below : x.above.head? = some parent) (decides : Tag.contextOf? x.above = some context)
    (h : parent.allowsChild context x.node.data = false) :
    IsRefused x (.disallowedChild
      (if parent = .conditional ∨ parent = .replace then parent else context).label
      x.node.data.label)

def setting? (above : List Tag) : Option Setting :=
  above.head?.bind (fun parent => (Tag.contextOf? above).map (Setting.mk parent))

/-- The fault that the check finds with the spot. -/
def fault? (x : Spot) : Option DocumentError :=
  x.node.data.fault? (setting? x.above) x.above.length

theorem setting?_cons (t : Tag) (above : List Tag) :
    setting? (t :: above) = some (Setting.below (setting? above) t) := by
  cases above with
  | nil => rfl
  | cons parent above =>
    obtain ⟨context, found⟩ := Tag.exists_contextOf? parent above
    have outer : setting? (parent :: above) = some ⟨parent, context⟩ := by simp [setting?, found]
    rw [outer]
    simp only [setting?, List.head?_cons, Option.bind_some, Tag.contextOf?_below, found,
      Setting.below]
    split <;> rfl

theorem setting?_eq_some {above : List Tag} {s : Setting} :
    setting? above = some s ↔
      above.head? = some s.parent ∧ Tag.contextOf? above = some s.context := by
  obtain ⟨parent, context⟩ := s
  cases above with
  | nil => simp [setting?]
  | cons t above =>
    cases found : Tag.contextOf? (t :: above) <;> simp [setting?, found]

theorem blamed_eq (parent context : Tag) :
    parent.blamed context =
      if parent = .conditional ∨ parent = .replace then parent else context := by
  cases parent <;> simp [Tag.blamed]

theorem fault?_eq_some : x.fault? = some fault ↔ x.IsRefused fault := by
  unfold fault? Tag.fault?
  by_cases deep : maxDepth ≤ x.above.length
  · rw [if_pos deep, Option.some.injEq]
    constructor
    · rintro rfl
      exact .deep deep
    · intro h
      cases h with
      | deep => rfl
      | lacking shallow => omega
      | misplaced shallow => omega
  · have shallow : x.above.length < maxDepth := Nat.not_le.1 deep
    rw [if_neg deep, Option.or_eq_some_iff, Tag.missing?_eq_some, Tag.missing?_eq_none]
    constructor
    · rintro (⟨element, property, lacks, rfl⟩ | ⟨complete, misplaced⟩)
      · exact .lacking shallow lacks
      · obtain ⟨s, above, found⟩ := Option.bind_eq_some_iff.1 misplaced
        obtain ⟨below, decides⟩ := setting?_eq_some.1 above
        cases allowed : s.parent.allowsChild s.context x.node.data with
        | true => simp [allowed] at found
        | false =>
          obtain rfl : _ = fault := by simpa [allowed] using found
          rw [blamed_eq]
          exact .misplaced shallow complete below decides allowed
    · intro h
      cases h with
      | deep h => exact absurd h deep
      | lacking _ lacks => exact .inl ⟨_, _, lacks, rfl⟩
      | @misplaced parent context _ complete below decides allowed =>
        refine .inr ⟨complete, Option.bind_eq_some_iff.2
          ⟨⟨parent, context⟩, setting?_eq_some.2 ⟨below, decides⟩, ?_⟩⟩
        simp [allowed, blamed_eq]

theorem fault?_eq_none : x.fault? = none ↔ x.IsSound := by
  rw [Option.eq_none_iff_forall_ne_some]
  constructor
  · intro faultless
    have refused (fault : DocumentError) : ¬ x.IsRefused fault :=
      fun h => faultless fault (fault?_eq_some.2 h)
    have shallow : x.above.length < maxDepth := Nat.not_le.1 (fun h => refused _ (.deep h))
    have complete := fun element property lacks =>
      refused (.missingProperty element property) (.lacking shallow lacks)
    refine ⟨shallow, complete, fun parent context below decides => ?_⟩
    cases allowed : parent.allowsChild context x.node.data with
    | true => rfl
    | false => exact absurd (.misplaced shallow complete below decides allowed) (refused _)
  · intro sound fault refused
    cases fault?_eq_some.1 refused with
    | deep h => exact absurd sound.shallow (Nat.not_lt.2 h)
    | lacking _ h => exact sound.complete _ _ h
    | misplaced _ _ below decides h =>
      exact absurd (sound.allowed _ _ below decides) (by simp [h])

end Spot

/-! ### Whole documents -/

/-- The check of a forest goes through its spots in preorder. -/
theorem Forest.grammarFault?_eq_findSome? (t : Forest Tag) (above : List Tag) :
    Forest.grammarFault? (Spot.setting? above) above.length t =
      (Forest.spots above t).findSome? Spot.fault? := by
  induction t using Forest.induction generalizing above with
  | nil => rfl
  | cons t e cs rest hcs hrest =>
    have inside := hcs (t :: above)
    rw [Spot.setting?_cons, List.length_cons] at inside
    rw [Forest.grammarFault?, Node.grammarFault?, inside, hrest, Forest.spots_cons,
      List.findSome?_cons, List.findSome?_append, Option.or_assoc]
    show Option.or (Spot.fault? ⟨above, ⟨t, e, cs⟩⟩) _ = _
    cases Spot.fault? ⟨above, ⟨t, e, cs⟩⟩ <;> rfl

theorem Forest.grammarFault?_roots (t : Forest Tag) :
    Forest.grammarFault? none 0 t = (Forest.spots [] t).findSome? Spot.fault? :=
  Forest.grammarFault?_eq_findSome? t []

theorem Forest.find?_stranger {t : Forest Tag} {n : Node Tag} :
    t.reverse.find? (fun n => !n.data.isContainer) = some n ↔
      ∃ before after, t = before ++ n :: after ∧ n.data.isContainer = false ∧
        ∀ m ∈ after, m.data.isContainer = true := by
  rw [List.find?_eq_some_iff_append]
  constructor
  · rintro ⟨stranger, after, before, split, containers⟩
    refine ⟨before.reverse, after.reverse, ?_, by simpa using stranger,
      by simpa using containers⟩
    rw [← List.reverse_reverse t, split]
    simp
  · rintro ⟨before, after, rfl, stranger, containers⟩
    exact ⟨by simpa using stranger, after.reverse, before.reverse, by simp,
      by simpa using containers⟩

theorem Forest.find?_stranger_eq_none {t : Forest Tag} :
    t.reverse.find? (fun n => !n.data.isContainer) = none ↔
      ∀ n ∈ t, n.data.isContainer = true := by
  simp [List.find?_eq_none]

theorem Forest.documentFault?_eq_none_iff_sound {t : Forest Tag} :
    Forest.documentFault? t = none ↔
      (∀ n ∈ t, n.data.isContainer = true) ∧ ∀ x ∈ Forest.spots [] t, x.IsSound := by
  rw [← Forest.find?_stranger_eq_none, Forest.documentFault?]
  cases t.reverse.find? (fun n => !n.data.isContainer) with
  | some n => simp
  | none => simp [Forest.grammarFault?_roots, List.findSome?_eq_none_iff, Spot.fault?_eq_none]

theorem Forest.documentFault?_eq_some_iff {t : Forest Tag} {fault : DocumentError} :
    Forest.documentFault? t = some fault ↔
      (∃ before n after, t = before ++ n :: after ∧ n.data.isContainer = false ∧
        (∀ m ∈ after, m.data.isContainer = true) ∧ fault = .invalidRoot n.data.label) ∨
      ((∀ n ∈ t, n.data.isContainer = true) ∧ ∃ before x after,
        Forest.spots [] t = before ++ x :: after ∧ (∀ y ∈ before, y.IsSound) ∧
          x.IsRefused fault) := by
  have roots : (∃ before n after, t = before ++ n :: after ∧ n.data.isContainer = false ∧
      (∀ m ∈ after, m.data.isContainer = true) ∧ fault = .invalidRoot n.data.label) ↔
      ∃ n, t.reverse.find? (fun n => !n.data.isContainer) = some n ∧
        fault = .invalidRoot n.data.label := by
    simp only [Forest.find?_stranger]
    constructor
    · rintro ⟨before, n, after, split, alien, containers, rfl⟩
      exact ⟨n, ⟨before, after, split, alien, containers⟩, rfl⟩
    · rintro ⟨n, ⟨before, after, split, alien, containers⟩, rfl⟩
      exact ⟨before, n, after, split, alien, containers, rfl⟩
  rw [roots, ← Forest.find?_stranger_eq_none, Forest.documentFault?]
  cases t.reverse.find? (fun n => !n.data.isContainer) with
  | some n => simp [eq_comm]
  | none =>
    simp only [Forest.grammarFault?_roots, List.findSome?_eq_some_iff, Spot.fault?_eq_none,
      Spot.fault?_eq_some, reduceCtorEq, false_and, exists_false, false_or, true_and]
    simp only [and_comm]

/-- A document is accepted exactly when its roots are containers and every spot is sound. A refused
one has a root that is no container, and is refused for the last such root; or its roots are
containers, and it is refused for the first spot in preorder that is not sound. -/
theorem Forest.validate_decides (t : Forest Tag) :
    (Forest.validate t = .ok () ↔
      (∀ n ∈ t, n.data.isContainer = true) ∧ ∀ x ∈ Forest.spots [] t, x.IsSound) ∧
    ∀ fault, Forest.validate t = .error fault ↔
      (∃ before n after, t = before ++ n :: after ∧ n.data.isContainer = false ∧
        (∀ m ∈ after, m.data.isContainer = true) ∧ fault = .invalidRoot n.data.label) ∨
      ((∀ n ∈ t, n.data.isContainer = true) ∧ ∃ before x after,
        Forest.spots [] t = before ++ x :: after ∧ (∀ y ∈ before, y.IsSound) ∧
          x.IsRefused fault) := by
  rw [← Forest.documentFault?_eq_none_iff_sound]
  simp only [← Forest.documentFault?_eq_some_iff]
  unfold Forest.validate
  cases Forest.documentFault? t with
  | none => simp
  | some fault => simp

/-- A text that lies in no field is found in the room around its conditional, before the nameless
room behind it. -/
example : Forest.documentFault? [.branch (.asset "house") [.branch (.room "hall")
    [.branch .conditional [.branch (.onCondition "night")
      [.leaf (.text "dark"), .leaf (.room "")]]]]] = some (.disallowedChild "Room" "String") := by
  decide

end WorldMarkup
