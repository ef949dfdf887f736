import WorldMarkup.Proofs.Form.Lawful
import WorldMarkup.Proofs.Form.Reachable
import WorldMarkup.Proofs.Tree.Trails

/-!
The entities that documents name: those outside of imports and exports, and those that imports
hold. Main statements: in accepted documents the content paths lead through the entities of every
root that has content of its own, and the paths of declarations start with the entities that
imports hold.
-/

set_option autoImplicit false
set_option relaxedAutoImplicit false

namespace WorldMarkup

open Standardize (isDeclaration declarationPath? rootContent combined)

mutual

def Node.entities : Node Tag → List Entity
  | ⟨t, _, cs⟩ => if isDeclaration t then [] else t.entity?.toList ++ Forest.entities cs

/-- The entities of a forest that stand in no import and no export. -/
def Forest.entities : Forest Tag → List Entity
  | [] => []
  | n :: rest => n.entities ++ Forest.entities rest

end

mutual

/-- The entities that the imports of a tree hold. An import that stands in an import or an export
declares nothing. -/
def Node.imports : Node Tag → List Entity
  | ⟨t, _, cs⟩ =>
    match t with
    | .imported _ => List.filterMap (fun c => c.data.entity?) cs
    | .exported => []
    | _ => Forest.imports cs

/-- The entities that the imports of a forest hold. -/
def Forest.imports : Forest Tag → List Entity
  | [] => []
  | n :: rest => n.imports ++ Forest.imports rest

end

mutual

def Node.hasContent : Node Tag → Bool
  | ⟨t, _, cs⟩ => !isDeclaration t && (cs.isEmpty || Forest.hasContent cs)

/-- Whether the forest ends anywhere outside of imports and exports. -/
def Forest.hasContent : Forest Tag → Bool
  | [] => false
  | n :: rest => n.hasContent || Forest.hasContent rest

end

/-! ### Contexts -/

namespace Tag

variable {context t : Tag}

theorem isContainer_of_allows (h : context.allows t = true) (declares : isDeclaration t = true) :
    context.isContainer = true := by
  cases t <;> simp [isDeclaration] at declares
  all_goals
    cases context <;>
      simp_all [allows, inEntity, isContainer, isInlineContent, isText, text?, entity?]

theorem isDeclaration_of_allows (h : context.allows t = true) (root : t.isContainer = true) :
    isDeclaration context = true := by
  cases t <;> simp [isContainer] at root
  all_goals
    cases context <;>
      simp_all [allows, inEntity, isDeclaration, isInlineContent, isText, text?, entity?]

theorem isContainer_frame (t : Tag) : t.frame.isContainer = t.isContainer := by
  cases t <;> simp [frame, EntityKind.frame, isContainer]

theorem kin_entity {e : Entity} :
    t.Kin (.entity e) ↔ ∃ x, t.entity? = some x ∧ x.kind = e.kind ∧ x.key = e.key := by
  constructor
  · rintro (rfl | same)
    · exact ⟨e, rfl, rfl, rfl⟩
    · cases t with
      | entity x => exact ⟨x, rfl, by simpa [Tag.same] using same⟩
      | _ => simp [Tag.same] at same
  · rintro ⟨x, hx, same⟩
    cases t <;> simp_all [entity?, Kin, Tag.same]

theorem kin_imported {source : String} : t.Kin (.imported source) ↔ t = .imported source := by
  constructor
  · rintro (rfl | same)
    · rfl
    · cases t <;> simp [Tag.same] at same
      rw [same]
  · exact fun same => .inl same

end Tag

namespace Scope

variable {scope : Scope} {t : Tag}

theorem isDeclaration_below (outside : isDeclaration scope.context = false)
    (plain : isDeclaration t = false) : isDeclaration (scope.below t).context = false := by
  cases passing : t.isTransparent with
  | true => rwa [context_below passing]
  | false => rw [Scope.below_eq_of_opaque passing, context, Tag.isDeclaration_frame, plain]

theorem Admits.closed (admitted : scope.Admits t)
    (outside : isDeclaration scope.context = false) (closed : scope.context.isContainer = false) :
    isDeclaration t = false ∧ (scope.below t).context.isContainer = false := by
  have plain : isDeclaration t = false ∧ t.isContainer = false ∨ t.isTransparent = true := by
    cases scope with
    | content context =>
      rcases admitted with allowed | ⟨-, rfl⟩
      · left
        constructor
        · by_contra declares
          rw [Bool.not_eq_false] at declares
          simp [Tag.isContainer_of_allows allowed declares, Scope.context] at closed
        · by_contra root
          rw [Bool.not_eq_false] at root
          simp [Tag.isDeclaration_of_allows allowed root, Scope.context] at outside
      · exact .inl ⟨rfl, rfl⟩
    | branches context | halves context =>
      right
      cases t <;> simp_all [Admits, Tag.category, Tag.isTransparent]
  cases passing : t.isTransparent with
  | true =>
    refine ⟨?_, by rwa [context_below passing]⟩
    cases t <;> simp_all [Tag.isTransparent, isDeclaration]
  | false =>
    obtain ⟨undeclared, inner⟩ := plain.resolve_right (by simp [passing])
    refine ⟨undeclared, ?_⟩
    rw [Scope.below_eq_of_opaque passing, context, Tag.isContainer_frame, inner]

theorem Admits.closed_below {e : Entity} (admitted : scope.Admits (.entity e))
    (outside : isDeclaration scope.context = false) :
    (scope.below (.entity e)).context.isContainer = false := by
  have content := exists_content admitted (by simp [Tag.category]) (by simp [Tag.category])
  rw [content] at admitted
  rcases admitted with allowed | ⟨-, space⟩
  · rw [Scope.below_eq_of_opaque rfl, context, Tag.isContainer_frame]
    by_contra root
    rw [Bool.not_eq_false] at root
    simp [Tag.isDeclaration_of_allows allowed root] at outside
  · simp at space

end Scope

/-! ### Content paths -/

theorem Path.IsLawful.isContent {scope : Scope} {p : Path Tag} (h : IsLawful scope p)
    (outside : isDeclaration scope.context = false) (closed : scope.context.isContainer = false) :
    p.IsContent := by
  induction p generalizing scope with
  | nil => simp [IsContent]
  | cons s rest ih =>
    obtain ⟨⟨admitted, -, -⟩, below⟩ := isLawful_cons.1 h
    obtain ⟨plain, closed'⟩ := admitted.closed outside closed
    exact List.forall_mem_cons.2
      ⟨plain, ih below (Scope.isDeclaration_below outside plain) closed'⟩

/-- A path leads to an entity, through no import and no export. -/
def Path.Names (e : Entity) (p : Path Tag) : Prop :=
  p.IsContent ∧ ∃ s ∈ p, s.data.entity? = some e

namespace Forest

variable {first : Nat} {t : Forest Tag} {e : Entity}

theorem not_names_nil : ¬ Path.Names e [] := by
  simp [Path.Names]

theorem names_cons {s : Step Tag} {p : Path Tag} :
    Path.Names e (s :: p) ↔ isDeclaration s.data = false ∧
      ((s.data.entity? = some e ∧ p.IsContent) ∨ Path.Names e p) := by
  simp only [Path.Names, Path.IsContent, List.mem_cons, forall_eq_or_imp, or_and_right, exists_or,
    exists_eq_left]
  tauto

theorem names_rests :
    (∃ q ∈ Forest.rests first t, Path.Names e q) ↔
      ∃ q ∈ Forest.pathsFrom first t, Path.Names e q := by
  cases t with
  | nil => simp [rests, Forest.pathsFrom, not_names_nil]
  | cons n t => rfl

theorem hasContent_iff_paths (first : Nat) :
    Forest.hasContent t = true ↔ ∃ p ∈ Forest.pathsFrom first t, p.IsContent := by
  induction t using Forest.induction generalizing first with
  | nil => simp [Forest.hasContent, Forest.pathsFrom]
  | cons d x cs rest hcs hrest =>
    have below : (cs.isEmpty || Forest.hasContent cs) = true ↔
        ∃ q ∈ Forest.rests (first + 1) cs, q.IsContent := by
      cases cs with
      | nil => simp [rests, Path.IsContent]
      | cons n cs => simpa [rests] using hcs (first + 1)
    rw [Forest.hasContent, Node.hasContent, Bool.or_eq_true, Bool.and_eq_true, below,
      hrest (first + Node.size ⟨d, x, cs⟩), Forest.pathsFrom, paths_eq_rests]
    simp only [List.mem_append, List.mem_map, or_and_right, exists_or, Bool.not_eq_true']
    refine or_congr_left ?_
    constructor
    · rintro ⟨plain, q, hq, content⟩
      exact ⟨_, ⟨q, hq, rfl⟩, List.forall_mem_cons.2 ⟨plain, content⟩⟩
    · rintro ⟨-, ⟨q, hq, rfl⟩, content⟩
      obtain ⟨plain, content⟩ := List.forall_mem_cons.1 content
      exact ⟨plain, q, hq, content⟩

theorem exists_content_rests {scope : Scope} {cs : Forest Tag}
    (admitted : scope.Admits (.entity e)) (outside : isDeclaration scope.context = false)
    (below : Forest.Stands Tag.standsLawfully (scope.below (.entity e)) cs) (first : Nat) :
    ∃ q ∈ Forest.rests first cs, q.IsContent := by
  -- nothing is declared below an entity, so any path through it will do
  obtain ⟨q, hq⟩ := List.exists_mem_of_ne_nil _ (rests_ne_nil first cs)
  refine ⟨q, hq, ?_⟩
  rw [rests] at hq
  split at hq
  · simp [List.mem_singleton.1 hq, Path.IsContent]
  · exact Path.IsLawful.isContent (below.pathsFrom hq)
      (Scope.isDeclaration_below outside rfl) (admitted.closed_below outside)

/-- The content paths of lawful content lead to its entities, where nothing is imported or
exported. -/
theorem exists_names_iff {scope : Scope} (h : Forest.Stands Tag.standsLawfully scope t)
    (outside : isDeclaration scope.context = false) (first : Nat) :
    (∃ p ∈ Forest.pathsFrom first t, Path.Names e p) ↔ e ∈ Forest.entities t := by
  induction t using Forest.induction generalizing scope first with
  | nil => simp [Forest.entities, Forest.pathsFrom]
  | cons d x cs rest hcs hrest =>
    obtain ⟨⟨⟨admitted, -, -⟩, below⟩, beside⟩ := h
    rw [Forest.entities, List.mem_append, ← hrest beside outside (first + Node.size ⟨d, x, cs⟩),
      Forest.pathsFrom, paths_eq_rests]
    simp only [List.mem_append, List.mem_map, or_and_right, exists_or]
    refine or_congr_left ?_
    cases declares : isDeclaration d with
    | true =>
      simp only [Node.entities, declares, if_true, List.not_mem_nil, iff_false]
      rintro ⟨-, ⟨q, -, rfl⟩, names⟩
      simp [names_cons, declares] at names
    | false =>
      have inside := hcs below (Scope.isDeclaration_below outside declares) (first + 1)
      simp only [Node.entities, declares, Bool.false_eq_true, if_false, List.mem_append,
        Option.mem_toList]
      rw [← inside, ← names_rests]
      constructor
      · rintro ⟨-, ⟨q, hq, rfl⟩, names⟩
        obtain ⟨-, ⟨own, -⟩ | later⟩ := names_cons.1 names
        · exact .inl own
        · exact .inr ⟨q, hq, later⟩
      · rintro (own | ⟨q, hq, later⟩)
        · obtain rfl : d = .entity e := by
            cases d <;> simp_all [Tag.entity?]
          obtain ⟨q, hq, content⟩ := exists_content_rests admitted outside below (first + 1)
          exact ⟨_, ⟨q, hq, rfl⟩, names_cons.2 ⟨declares, .inl ⟨own, content⟩⟩⟩
        · exact ⟨_, ⟨q, hq, rfl⟩, names_cons.2 ⟨declares, .inr later⟩⟩

end Forest

/-! ### The paths of declarations -/

/-- The declaration that a path passes through first is an import, and holds an entity that speaks
of the given one right below it on the path. -/
def Path.Imports (e : Entity) (p : Path Tag) : Prop :=
  ∃ q ∈ declarationPath? p, ∃ source, Path.HasTrail [.imported source, .entity e] q

theorem Standardize.declarationPath?_cons (s : Step Tag) (p : Path Tag) :
    declarationPath? (s :: p) =
      if isDeclaration s.data then some (s :: p) else declarationPath? p := by
  cases declares : isDeclaration s.data <;> simp [declarationPath?, declares]

namespace Path

variable {e : Entity} {s : Step Tag} {p : Path Tag}

theorem imports_of_imported {source : String} (h : s.data = .imported source) :
    Path.Imports e (s :: p) ↔ Path.HasTrail [.entity e] p := by
  have own : declarationPath? (s :: p) = some (s :: p) := by
    simp [Standardize.declarationPath?_cons, h, isDeclaration]
  constructor
  · rintro ⟨q, hq, _, follows⟩
    obtain rfl := Option.some.inj (own.symm.trans hq)
    exact follows.2
  · intro follows
    exact ⟨_, own, source, Tag.kin_imported.2 h, follows⟩

theorem not_imports_of_exported (h : s.data = .exported) : ¬ Path.Imports e (s :: p) := by
  have own : declarationPath? (s :: p) = some (s :: p) := by
    simp [Standardize.declarationPath?_cons, h, isDeclaration]
  rintro ⟨q, hq, source, follows⟩
  obtain rfl := Option.some.inj (own.symm.trans hq)
  have kin : s.data = .imported source := Tag.kin_imported.1 follows.1
  simp [h] at kin

theorem imports_of_plain (h : isDeclaration s.data = false) :
    Path.Imports e (s :: p) ↔ Path.Imports e p := by
  simp [Imports, Standardize.declarationPath?_cons, h]

end Path

namespace Forest

variable {t : Forest Tag} {e : Entity}

/-- The paths of declarations start with the entities that imports hold. -/
theorem exists_imports_iff (first : Nat) :
    (∃ p ∈ Forest.pathsFrom first t, Path.Imports e p) ↔
      ∃ x ∈ Forest.imports t, x.kind = e.kind ∧ x.key = e.key := by
  induction t using Forest.induction generalizing first with
  | nil => simp [Forest.imports, Forest.pathsFrom]
  | cons d extra cs rest hcs hrest =>
    rw [Forest.imports, Forest.pathsFrom, paths_eq_rests]
    simp only [List.mem_append, List.mem_map, or_and_right, exists_or,
      hrest (first + Node.size ⟨d, extra, cs⟩)]
    refine or_congr_left ?_
    simp only [exists_exists_and_eq_and]
    cases declares : isDeclaration d with
    | true =>
      cases d <;> simp [isDeclaration] at declares
      case imported source =>
        simp only [Path.imports_of_imported (s := ⟨.imported source, extra, first⟩) rfl]
        rw [← hasTrail_iff_rests (fun _ _ => hasTrail_iff_paths (first + 1))]
        simp only [HasTrail, and_true, Tag.kin_entity, Node.imports, List.mem_filterMap]
        constructor
        · rintro ⟨n, hn, x, hx, same⟩
          exact ⟨x, ⟨n, hn, hx⟩, same⟩
        · rintro ⟨x, ⟨n, hn, hx⟩, same⟩
          exact ⟨n, hn, x, hx, same⟩
      case exported =>
        simp [Path.not_imports_of_exported, Node.imports]
    | false =>
      have same : Node.imports ⟨d, extra, cs⟩ = Forest.imports cs := by
        cases d <;> simp_all [Node.imports, isDeclaration]
      have below : (∃ q ∈ Forest.rests (first + 1) cs, Path.Imports e q) ↔
          ∃ q ∈ Forest.pathsFrom (first + 1) cs, Path.Imports e q := by
        cases cs with
        | nil => simp [rests, Forest.pathsFrom, Path.Imports, declarationPath?]
        | cons n cs => rfl
      rw [same, ← hcs (first + 1), ← below]
      simp only [Path.imports_of_plain (s := ⟨d, extra, first⟩) declares]

end Forest

/-! ### Documents -/

namespace Forest

variable {t u : Forest Tag}

theorem entities_append : Forest.entities (t ++ u) = Forest.entities t ++ Forest.entities u := by
  induction t with
  | nil => rfl
  | cons n t ih => simp [Forest.entities, ih]

theorem imports_append : Forest.imports (t ++ u) = Forest.imports t ++ Forest.imports u := by
  induction t with
  | nil => rfl
  | cons n t ih => simp [Forest.imports, ih]

theorem entities_liftInherited (b : Bool) :
    Forest.entities (Forest.liftInherited b t) = Forest.entities t := by
  induction t using Forest.induction generalizing b with
  | nil => rfl
  | cons d x cs rest hcs hrest =>
    rw [Forest.liftInherited, entities_append, hrest, Forest.entities]
    congr 1
    by_cases inherited : d = .inherited
    · subst inherited
      rw [Node.liftInherited, if_pos rfl, hcs]
      simp [Node.entities, isDeclaration, Tag.entity?]
    · rw [Node.liftInherited, if_neg inherited]
      simp only [Forest.entities, Node.entities, hcs, List.append_nil]

theorem data_liftInherited (b : Bool) (h : ∀ n ∈ t, n.data ≠ .inherited) :
    List.map Node.data (Forest.liftInherited b t) = List.map Node.data t := by
  induction t with
  | nil => rfl
  | cons n t ih =>
    obtain ⟨own, others⟩ := List.forall_mem_cons.1 h
    rcases n with ⟨d, x, cs⟩
    rw [Forest.liftInherited, Node.liftInherited, if_neg own, List.singleton_append, List.map_cons,
      ih others, List.map_cons]

theorem entity?_of_imported {above : Option Setting} {source : String} {depth : Nat}
    (h : Forest.grammarFault? (some (Setting.below above (.imported source))) depth t = none) :
    ∀ n ∈ t, n.data.entity?.isSome = true := by
  intro n hn
  rcases n with ⟨d, x, cs⟩
  have gnode := Forest.grammarFault?_of_mem h hn
  rw [Node.grammarFault?, Option.or_eq_none_iff] at gnode
  have allowed := (Tag.fault?_none gnode.1).2 _ rfl
  cases above <;> cases d <;>
    simp_all [Setting.below, Tag.allowsChild, Tag.allows, Tag.isTransparent, Tag.entity?]

theorem imports_liftInherited {s : Setting} {depth : Nat}
    (h : Forest.grammarFault? (some s) depth t = none) (b : Bool) :
    Forest.imports (Forest.liftInherited b t) = Forest.imports t := by
  induction t using Forest.induction generalizing s depth b with
  | nil => rfl
  | cons d x cs rest hcs hrest =>
    obtain ⟨-, inside, others⟩ := grammarFault?_cons h
    rw [Forest.liftInherited, imports_append, hrest others, Forest.imports]
    congr 1
    by_cases inherited : d = .inherited
    · subst inherited
      rw [Node.liftInherited, if_pos rfl, hcs inside]
      rfl
    · rw [Node.liftInherited, if_neg inherited, Forest.imports, Forest.imports, List.append_nil]
      cases d with
      | imported source =>
        have entities := entity?_of_imported inside
        have plain : ∀ n ∈ cs, n.data ≠ .inherited := by
          intro n hn own
          have := entities n hn
          simp [own, Tag.entity?] at this
        have data := data_liftInherited (b || x.inherited) plain
        have imports (u : Forest Tag) : List.filterMap (fun c : Node Tag => c.data.entity?) u =
            (List.map Node.data u).filterMap Tag.entity? := by
          rw [List.filterMap_map]
          rfl
        show List.filterMap _ _ = List.filterMap _ _
        rw [imports, imports, data]
      | exported => rfl
      | inherited => exact absurd rfl inherited
      | _ => exact hcs inside _

end Forest

section Roots

variable {t : Forest Tag} {n : Node Tag} {e : Entity}

theorem rootContent_entity (own : Entity) (x : Extra) (cs : Forest Tag) :
    rootContent ⟨.entity own, x, cs⟩ =
      [⟨.entity own, x, Forest.liftInherited x.inherited cs⟩] := by
  simp [rootContent, Node.liftInherited]

/-- An entity of a root is the root, or some content path leads to it. -/
theorem mem_entities_root (accepted : Forest.documentFault? t = none) (hn : n ∈ t) (first : Nat) :
    e ∈ n.entities ↔ n.data = .entity e ∨
      ∃ p ∈ Forest.pathsFrom first (rootContent n), Path.Names e p := by
  obtain ⟨roots, grammar⟩ := Forest.documentFault?_none accepted
  have root := roots n hn
  have gnode := Forest.grammarFault?_of_mem grammar hn
  rcases n with ⟨d, x, cs⟩
  rw [Node.grammarFault?, Option.or_eq_none_iff] at gnode
  have stands (b : Bool) := stands_lawfully_liftInherited gnode.2 b
  cases d with
  | asset key =>
    have inside : (∃ p ∈ Forest.pathsFrom first (rootContent ⟨.asset key, x, cs⟩),
        Path.Names e p) ↔ e ∈ Forest.entities (Forest.liftInherited false cs) :=
      Forest.exists_names_iff (stands false) rfl first
    rw [inside, Forest.entities_liftInherited, or_iff_right (by simp)]
    rfl
  | entity own =>
    have inside : (∃ q ∈ Forest.rests (first + 1) (Forest.liftInherited x.inherited cs),
        Path.Names e q) ↔ e ∈ Forest.entities cs := by
      rw [Forest.names_rests, Forest.exists_names_iff (stands x.inherited) rfl (first + 1),
        Forest.entities_liftInherited]
    have entities : Node.entities ⟨.entity own, x, cs⟩ = own :: Forest.entities cs := rfl
    rw [entities, List.mem_cons, ← inside, rootContent_entity]
    simp only [Forest.pathsFrom, Forest.paths_eq_rests, List.append_nil, List.mem_map,
      Tag.entity.injEq, exists_exists_and_eq_and, eq_comm (a := e)]
    constructor
    · rintro (same | ⟨q, hq, names⟩)
      · exact .inl same
      · exact .inr ⟨q, hq, Forest.names_cons.2 ⟨rfl, .inr names⟩⟩
    · rintro (same | ⟨q, hq, names⟩)
      · exact .inl same
      · obtain ⟨-, ⟨same, -⟩ | later⟩ := Forest.names_cons.1 names
        · exact .inl (Option.some.inj same)
        · exact .inr ⟨q, hq, later⟩
  | _ => simp [Tag.isContainer] at root

theorem exists_names_rootContent (accepted : Forest.documentFault? t = none) (hn : n ∈ t)
    (first : Nat) :
    (∃ p ∈ Forest.pathsFrom first (rootContent n), Path.Names e p) ↔
      Forest.hasContent (rootContent n) = true ∧ e ∈ n.entities := by
  rw [mem_entities_root accepted hn first, Forest.hasContent_iff_paths first]
  constructor
  · rintro ⟨p, hp, names⟩
    exact ⟨⟨p, hp, names.1⟩, .inr ⟨p, hp, names⟩⟩
  · rintro ⟨⟨p, hp, content⟩, own | names⟩
    · rcases n with ⟨d, x, cs⟩
      obtain rfl : d = .entity e := own
      rw [rootContent_entity, Forest.pathsFrom, Forest.paths_eq_rests] at hp ⊢
      obtain ⟨q, hq, rfl⟩ := List.mem_map.1 (by simpa [Forest.pathsFrom] using hp)
      exact ⟨_, hp, content, _, List.mem_cons_self, rfl⟩
    · exact names

theorem imports_rootContent (accepted : Forest.documentFault? t = none) (hn : n ∈ t) :
    Forest.imports (rootContent n) = n.imports := by
  obtain ⟨roots, grammar⟩ := Forest.documentFault?_none accepted
  have root := roots n hn
  have gnode := Forest.grammarFault?_of_mem grammar hn
  rcases n with ⟨d, x, cs⟩
  rw [Node.grammarFault?, Option.or_eq_none_iff] at gnode
  cases d with
  | asset key => exact Forest.imports_liftInherited gnode.2 false
  | entity own =>
    rw [rootContent_entity, Forest.imports, Forest.imports, List.append_nil]
    exact Forest.imports_liftInherited gnode.2 _
  | _ => simp [Tag.isContainer] at root

end Roots

namespace Standardize

variable {inputs : List (Forest Tag)} {e : Entity}

theorem exists_names_combined (accepted : ∀ t ∈ inputs, Forest.documentFault? t = none) :
    (∃ p ∈ Forest.paths (combined inputs), Path.Names e p) ↔
      ∃ t ∈ inputs, ∃ n ∈ t, Forest.hasContent (rootContent n) = true ∧ e ∈ n.entities :=
  Forest.exists_path_flatMap (fun t ht first => Forest.exists_path_flatMap
    (fun _ hn first => exists_names_rootContent (accepted t ht) hn first) first) 0

theorem mem_imports_iff {t : Forest Tag} {x : Entity} :
    x ∈ Forest.imports t ↔ ∃ n ∈ t, x ∈ n.imports := by
  induction t with
  | nil => simp [Forest.imports]
  | cons n t ih => simp [Forest.imports, ih]

theorem exists_imports_combined (accepted : ∀ t ∈ inputs, Forest.documentFault? t = none) :
    (∃ p ∈ Forest.paths (combined inputs), Path.Imports e p) ↔
      ∃ t ∈ inputs, ∃ x ∈ Forest.imports t, x.kind = e.kind ∧ x.key = e.key := by
  have roots (t : Forest Tag) (ht : t ∈ inputs) (n : Node Tag) (hn : n ∈ t) (first : Nat) :
      (∃ p ∈ Forest.pathsFrom first (rootContent n), Path.Imports e p) ↔
        ∃ x ∈ n.imports, x.kind = e.kind ∧ x.key = e.key := by
    rw [Forest.exists_imports_iff, imports_rootContent (accepted t ht) hn]
  refine Forest.exists_path_flatMap (fun t ht first => ?_) 0
  rw [Forest.exists_path_flatMap (roots t ht) first]
  simp only [mem_imports_iff]
  constructor
  · rintro ⟨n, hn, x, hx, same⟩
    exact ⟨x, ⟨n, hn, hx⟩, same⟩
  · rintro ⟨x, ⟨n, hn, hx⟩, same⟩
    exact ⟨n, hn, x, hx, same⟩

end Standardize

end WorldMarkup
