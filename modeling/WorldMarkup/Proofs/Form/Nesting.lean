import WorldMarkup.Proofs.Form.Lawful
import WorldMarkup.Proofs.Form.Assembly
import WorldMarkup.Proofs.Tree.Filtering

/-!
How entities stand within each other, and what a component sees of conditionals. Each entity is of
a lower kind than those around it, so a path reaches an entity once. Main statement: what the
component sees of accepted content agrees above every conditional and every branch, has branches
below conditionals only, in the order of their numbers, and one field at most on each path.
-/

set_option autoImplicit false
set_option relaxedAutoImplicit false

namespace WorldMarkup

open Standardize (isDeclaration)

/-! ### Entities within entities -/

/-- How deep entities may stand within an entity of the kind. -/
def EntityKind.height : EntityKind → Nat
  | .plain .moment => 3
  | .plain .message | .plain .theme => 2
  | .plain .room | .plain .map | .plain .character => 1
  | _ => 0

theorem Tag.height_lt_of_inEntity {kind : EntityKind} {e : Entity}
    (h : (Tag.entity e).inEntity kind = true) : e.kind.height < kind.height := by
  simp only [Tag.inEntity] at h
  generalize e.kind = inner at h ⊢
  split at h
  iterate 8 decide
  cases h

theorem Tag.of_allows_entity {context : Tag} {e : Entity}
    (h : context.allows (.entity e) = true) :
    (∃ key, context = .asset key) ∨ isDeclaration context = true ∨
      ∃ e', context = .entity e' ∧ (Tag.entity e).inEntity e'.kind = true := by
  cases context with
  | asset key => exact .inl ⟨key, rfl⟩
  | imported key => exact .inr (.inl rfl)
  | exported => exact .inr (.inl rfl)
  | entity e' => exact .inr (.inr ⟨e', rfl, h⟩)
  | _ => simp [allows, isInlineContent, isText, text?] at h

theorem Tag.allows_asset (context : Tag) (key : String) :
    context.allows (.asset key) = false := by
  cases context <;> rfl

theorem Tag.plain_of_branch {t : Tag} (h : t.category = .branch) :
    t.field? = none ∧ t.entity? = none ∧ t ≠ .conditional := by
  cases t <;> simp_all [category, field?, entity?]

namespace Path

/-- An entity further down is of a lower kind. -/
def Nests (s s' : Step Tag) : Prop :=
  ∀ e e', s.data = .entity e → s'.data = .entity e' → e'.kind.height < e.kind.height

variable {scope : Scope} {p : Path Tag} {n : Nat}

/-- A scope that holds low entities only, outside of declarations, holds no others further down. -/
theorem IsLawful.height_lt (h : IsLawful scope p) (content : p.IsContent)
    (bounded : ∀ e, scope.context.allows (.entity e) = true → e.kind.height < n) :
    ∀ s ∈ p, ∀ e, s.data = .entity e → e.kind.height < n := by
  induction p generalizing scope with
  | nil => simp
  | cons s rest ih =>
    obtain ⟨own, later⟩ := List.forall_mem_cons.1 content
    obtain ⟨⟨admitted, -, -⟩, below⟩ := h
    have here (e : Entity) (hs : s.data = .entity e) : e.kind.height < n := by
      have content := Scope.exists_content admitted (by simp [hs, Tag.category])
        (by simp [hs, Tag.category])
      rw [content, hs] at admitted
      rcases admitted with allowed | ⟨-, space⟩
      · exact bounded e allowed
      · simp at space
    refine List.forall_mem_cons.2 ⟨here, ih below later ?_⟩
    show ∀ e, (scope.below s.data).context.allows (.entity e) = true → e.kind.height < n
    intro e allowed
    cases passing : s.data.isTransparent with
    | true =>
      rw [Scope.context_below passing] at allowed
      exact bounded e allowed
    | false =>
      rw [Scope.below_eq_of_opaque passing, Scope.context, Tag.allows_frame] at allowed
      rcases Tag.of_allows_entity allowed with ⟨key, asset⟩ | declares | ⟨e', entity, inside⟩
      · have content := Scope.exists_content admitted (by simp [asset, Tag.category])
          (by simp [asset, Tag.category])
        rw [content, asset] at admitted
        rcases admitted with nested | ⟨-, space⟩
        · rw [Tag.allows_asset] at nested
          cases nested
        · cases space
      · exact absurd declares (by simp [own])
      · exact (Tag.height_lt_of_inEntity inside).trans (here e' entity)

theorem IsLawful.nests (h : IsLawful scope p) (content : p.IsContent) : p.Pairwise Nests := by
  induction p generalizing scope with
  | nil => exact .nil
  | cons s rest ih =>
    have later := (List.forall_mem_cons.1 content).2
    refine List.pairwise_cons.2 ⟨fun x hx e e' he he' => ?_, ih h.2 later⟩
    refine IsLawful.height_lt h.2 later (fun e₁ allowed => ?_) x hx e' he'
    have opened : (Tag.standsLawfully.below scope s.data).context = e.kind.frame := by
      rw [he]
      rfl
    rw [opened] at allowed
    exact Tag.height_lt_of_inEntity (by simpa [EntityKind.frame, Tag.allows] using allowed)

theorem IsLawful.field?_below {x y : Path Tag} {f : Step Tag}
    (h : IsLawful scope (x ++ f :: y)) (field : f.data.field?.isSome = true) :
    ∀ s ∈ y, s.data.field? = none := by
  obtain ⟨g, hg⟩ : ∃ g, f.data = .field g := by
    cases hd : f.data <;> simp_all [Tag.field?]
  have inside : IsLawful ((scopeAfter scope x).below f.data) y := (isLawful_append.1 h).2.2
  have opened : ((scopeAfter scope x).below f.data).context.category = .field := by
    rw [hg]
    rfl
  exact fun s hs => (inside.inline (.inl opened) s hs).1

end Path

/-! ### Accepted content -/

namespace Address

open Ownership (splitAtLast? untilNested ownedPath?)
open Standardize (combined rootContent)

/-- What the content paths of accepted documents have in common. -/
structure AreAccepted (docs : List (Path Tag)) : Prop where
  agree : ∀ {x y x' y' : Path Tag} {s s' : Step Tag}, x ++ s :: y ∈ docs →
    x' ++ s' :: y' ∈ docs → s.origin = s'.origin → x = x' ∧ s = s'
  rising : docs.Pairwise Path.Rises
  lawful : ∀ p ∈ docs, ∃ scope, p.IsLawful scope
  content : ∀ p ∈ docs, p.IsContent

theorem AreAccepted.nests {docs : List (Path Tag)} (h : AreAccepted docs) {p : Path Tag}
    (hp : p ∈ docs) : p.Pairwise Path.Nests := by
  obtain ⟨scope, lawful⟩ := h.lawful p hp
  exact lawful.nests (h.content p hp)

theorem exists_stands_lawfully {inputs : List (Forest Tag)}
    (accepted : ∀ t ∈ inputs, Forest.documentFault? t = none) {n : Node Tag}
    (hn : n ∈ combined inputs) : ∃ scope, n.Stands Tag.standsLawfully scope := by
  obtain ⟨t, ht, hn⟩ := List.mem_flatMap.1 hn
  obtain ⟨⟨d, e, cs⟩, hroot, hn⟩ := List.mem_flatMap.1 hn
  obtain ⟨roots, grammar⟩ := Forest.documentFault?_none (accepted t ht)
  have root := roots _ hroot
  have grammar := Forest.grammarFault?_of_mem grammar hroot
  simp only [Node.grammarFault?, Option.or_eq_none_iff] at grammar
  have below (b : Bool) : Forest.Stands Tag.standsLawfully (Setting.below none d).scope
      (Forest.liftInherited b cs) := stands_lawfully_liftInherited grammar.2 b
  cases d with
  | asset key => exact ⟨_, Forest.stands_iff.1 (below false) n hn⟩
  | entity entity =>
    have lifted : rootContent ⟨.entity entity, e, cs⟩ =
        [⟨.entity entity, { e with inherited := e.inherited },
          Forest.liftInherited e.inherited cs⟩] := by
      simp [rootContent, Node.liftInherited]
    rw [lifted] at hn
    obtain rfl := List.mem_singleton.1 hn
    have named := Tag.missing?_of_fault?_none grammar.1
    exact ⟨.content .exported, ⟨.inl rfl, named, by simp⟩, below _⟩
  | _ => simp [Tag.isContainer] at root

theorem exists_stands_of_mem_pathsFrom {σ : Type} {R : Standing σ} {t : Forest Tag}
    (h : ∀ n ∈ t, ∃ scope, n.Stands R scope) {first : Nat} {p : Path Tag}
    (hp : p ∈ Forest.pathsFrom first t) : ∃ scope, Path.Stands R scope p := by
  induction t generalizing first with
  | nil => simp [Forest.pathsFrom] at hp
  | cons n rest ih =>
    obtain ⟨own, others⟩ := List.forall_mem_cons.1 h
    rw [Forest.pathsFrom, List.mem_append] at hp
    rcases hp with hp | hp
    · obtain ⟨scope, stands⟩ := own
      have alone : Forest.Stands R scope [n] := ⟨stands, trivial⟩
      have single : p ∈ Forest.pathsFrom first [n] := by simpa [Forest.pathsFrom] using hp
      exact ⟨scope, alone.pathsFrom single⟩
    · exact ih others hp

theorem areAccepted_contentPaths {inputs : List (Forest Tag)}
    (accepted : ∀ t ∈ inputs, Forest.documentFault? t = none) :
    AreAccepted (contentPaths (combined inputs)) where
  agree hp hp' := Forest.prefix_eq_of_origin_eq (List.mem_filter.1 hp).1 (List.mem_filter.1 hp').1
  rising := ((Forest.pairwise_pathsFrom _ 0).imp And.right).filter _
  lawful _ hp := exists_stands_of_mem_pathsFrom
    (fun _ hn => exists_stands_lawfully accepted hn) (List.mem_filter.1 hp).1
  content _ hp := of_decide_eq_true (List.mem_filter.1 hp).2

/-! ### What a component sees above a conditional -/

variable {a : Address} {docs : List (Path Tag)} {scope : Scope}

theorem isTarget_beside {x y : Path Tag} {t : Step Tag} (nests : (x ++ t :: y).Pairwise Path.Nests)
    (target : a.isTarget t.data = true) :
    (∀ s ∈ x, a.isTarget s.data = false) ∧ ∀ s ∈ y, a.isTarget s.data = false := by
  obtain ⟨-, below, above⟩ := List.pairwise_append.1 nests
  have apart {s s' : Step Tag} (h : Path.Nests s s') (hs : a.isTarget s.data = true)
      (hs' : a.isTarget s'.data = true) : False := by
    obtain ⟨e, he, kind, -⟩ := exists_entity_of_isTarget hs
    obtain ⟨e', he', kind', -⟩ := exists_entity_of_isTarget hs'
    have lower := h e e' he he'
    rw [kind, kind'] at lower
    exact lt_irrefl _ lower
  constructor
  · intro s hs
    by_contra also
    exact apart (above s hs t List.mem_cons_self) (by simpa using also) target
  · intro s hs
    by_contra also
    exact apart ((List.pairwise_cons.1 below).1 s hs) target (by simpa using also)

/-- What the component sees of the steps above one that it sees. -/
def seenAbove (a : Address) (z : Path Tag) : Path Tag :=
  match splitAtLast? (fun s => a.isTarget s.data) z with
  | none => List.filter (fun s => s.data.isChain) z
  | some (above, t, below) => List.filter (fun s => s.data.isChain) above ++ t :: below

theorem exists_of_untilNested_eq {q x y : Path Tag} {w : Step Tag}
    (h : untilNested q = x ++ w :: y) (hw : w.data.entity? = none) :
    ∃ r, q = x ++ w :: r ∧ untilNested r = y := by
  induction q generalizing x with
  | nil => simp [untilNested] at h
  | cons s q ih =>
    by_cases nested : s.data.entity?.isSome = true
    · exfalso
      have cut : untilNested (s :: q) = [⟨s.data.withoutSource, {}, s.origin⟩] := by
        simp [untilNested, nested]
      have hmem : w ∈ untilNested (s :: q) := by simp [h]
      rw [cut, List.mem_singleton] at hmem
      subst hmem
      cases hd : s.data <;> simp_all [Tag.entity?, Tag.withoutSource]
    · have kept : untilNested (s :: q) = s :: untilNested q := by simp [untilNested, nested]
      rw [kept] at h
      cases x with
      | nil =>
        obtain ⟨rfl, rfl⟩ := List.cons.inj h
        exact ⟨q, rfl, rfl⟩
      | cons z x =>
        obtain ⟨rfl, below⟩ := List.cons.inj h
        obtain ⟨r, hr, rest⟩ := ih below
        exact ⟨r, by rw [hr]; rfl, rest⟩

/-- What a component sees of a path, beside the entity, is part of a conditional above it or stands
below it. -/
theorem exists_of_seen {p x y : Path Tag} {w : Step Tag}
    (ho : ownedPath? a.kind a.key p = some (x ++ w :: y)) (hw : w.data.entity? = none) :
    ∃ above t below, p = above ++ t :: below ∧ a.isTarget t.data = true ∧
      (∀ s ∈ below, a.isTarget s.data = false) ∧
      ((∃ z, List.filter (fun s => s.data.isChain) above = x ++ w :: z ∧
          y = z ++ t :: untilNested below) ∨
        ∃ z r, x = List.filter (fun s => s.data.isChain) above ++ t :: z ∧ below = z ++ w :: r ∧
          y = untilNested r) := by
  obtain ⟨above, t, below, rfl, target, others, seen⟩ := ownedPath?_cases ho
  obtain ⟨e, entity, -, -⟩ := exists_entity_of_isTarget target
  have strange : w ≠ t := by
    rintro rfl
    simp [entity, Tag.entity?] at hw
  refine ⟨above, t, below, rfl, target, others, ?_⟩
  rcases seen with ⟨-, seen⟩ | ⟨-, seen⟩
  · have hmem : w ∈ [t] := by simp [← seen]
    exact absurd (List.mem_singleton.1 hmem) strange
  rcases List.append_eq_append_iff.1 seen with ⟨z, hz, hrest⟩ | ⟨z, hz, hrest⟩
  · cases z with
    | nil => exact absurd (List.cons.inj hrest).1 strange
    | cons w' z =>
      obtain ⟨rfl, hy⟩ := List.cons.inj hrest
      exact .inl ⟨z, hz, hy⟩
  · cases z with
    | nil => exact absurd (List.cons.inj hrest).1.symm strange
    | cons t' z =>
      obtain ⟨rfl, hbelow⟩ := List.cons.inj hrest
      obtain ⟨r, rfl, rfl⟩ := exists_of_untilNested_eq hbelow hw
      exact .inr ⟨z, r, hz, rfl, rfl⟩

/-- Where a component sees a conditional, the path has it with the same step behind it, and the
steps above it say what is seen there. -/
theorem exists_of_conditional {p x y : Path Tag} {w : Step Tag} (lawful : p.IsLawful scope)
    (content : p.IsContent) (ho : ownedPath? a.kind a.key p = some (x ++ w :: y))
    (hw : w.data = .conditional) :
    ∃ z r, p = z ++ w :: r ∧ x = a.seenAbove z ∧ r.head? = y.head? := by
  obtain ⟨above, t, below, rfl, target, others, ⟨m, hm, rfl⟩ | ⟨m, r, rfl, rfl, rfl⟩⟩ :=
    exists_of_seen ho (by rw [hw]; rfl)
  · -- the conditional stands above the entity
    obtain ⟨l, l', rfl, rfl, hl⟩ := List.filter_eq_append_iff.1 hm
    obtain ⟨u, v, rfl, hu, -, rfl⟩ := List.filter_eq_cons_iff.1 hl
    have whole : (l ++ (u ++ w :: v)) ++ t :: below = (l ++ u) ++ w :: (v ++ t :: below) := by
      simp
    have higher := (isTarget_beside (lawful.nests content) target).1
    have none : ∀ s ∈ l ++ u, a.isTarget s.data = false := by
      intro s hs
      apply higher s
      rcases List.mem_append.1 hs with hs | hs
      · exact List.mem_append_left _ hs
      · exact List.mem_append_right _ (List.mem_append_left _ hs)
    rw [whole] at lawful ⊢
    refine ⟨l ++ u, _, rfl, ?_, ?_⟩
    · rw [seenAbove, Path.splitAtLast?_eq_none.2 none, List.filter_append,
        List.filter_eq_nil_iff.2 hu, List.append_nil]
    · cases v with
      | nil => rfl
      | cons b v =>
        have branch := (lawful.branch hw).1
        simp [isChain_of_branch branch]
  · -- it stands below the entity
    have whole : above ++ t :: (m ++ w :: r) = (above ++ t :: m) ++ w :: r := by simp
    rw [whole] at lawful ⊢
    refine ⟨above ++ t :: m, r, rfl, ?_, ?_⟩
    · have last : splitAtLast? (fun s => a.isTarget s.data) (above ++ t :: m) =
          some (above, t, m) :=
        Path.splitAtLast?_append target (fun s hs => others s (List.mem_append_left _ hs))
      rw [seenAbove, last]
    · cases r with
      | nil => rfl
      | cons b r =>
        have branch := (lawful.branch hw).1
        simp [untilNested, (Tag.plain_of_branch branch).2.1]

end Address

/-! ### The paths of a component -/

namespace SplitChain

/-- What the paths of a component have in common. -/
structure AreOwned (paths : List (Path Tag)) : Prop where
  /-- Paths through a conditional agree down to it. -/
  agree : ∀ {x y x' y' : Path Tag} {w w' : Step Tag}, x ++ w :: y ∈ paths →
    x' ++ w' :: y' ∈ paths → w.data = .conditional → w'.data = .conditional →
      w.origin = w'.origin → x = x' ∧ w = w'
  /-- Paths through a branch agree down to it. -/
  same : ∀ {x y x' y' : Path Tag} {w b w' b' : Step Tag}, x ++ w :: b :: y ∈ paths →
    x' ++ w' :: b' :: y' ∈ paths → w.data = .conditional → w'.data = .conditional →
      b.origin = b'.origin → x = x' ∧ w = w' ∧ b = b'
  branch : ∀ {x y : Path Tag} {w b : Step Tag}, x ++ w :: b :: y ∈ paths →
    w.data = .conditional → b.data.category = .branch
  /-- The branches of a conditional come in the order of their numbers. -/
  rising : paths.Pairwise (fun p q => ∀ x y y' w b b', p = x ++ w :: b :: y →
    q = x ++ w :: b' :: y' → w.data = .conditional → b.origin ≤ b'.origin)
  /-- A path leads into one field at most. -/
  alone : ∀ {x y : Path Tag} {f : Step Tag}, x ++ f :: y ∈ paths → f.data.field?.isSome = true →
    ∀ s ∈ y, s.data.field? = none

end SplitChain

namespace Address

open SplitChain (AreOwned)

variable {a : Address} {docs : List (Path Tag)}

theorem exists_of_mem_view (hdocs : AreAccepted docs) {x y : Path Tag} {w : Step Tag}
    (h : x ++ w :: y ∈ a.view docs) (hw : w.data = .conditional) :
    ∃ z r, z ++ w :: r ∈ docs ∧ x = a.seenAbove z ∧ r.head? = y.head? := by
  obtain ⟨p, hp, own⟩ := mem_view.1 h
  obtain ⟨scope, lawful⟩ := hdocs.lawful p hp
  obtain ⟨z, r, rfl, above, behind⟩ := exists_of_conditional lawful (hdocs.content p hp) own hw
  exact ⟨z, r, hp, above, behind⟩

/-- What a component sees of accepted content. -/
theorem areOwned_view (hdocs : AreAccepted docs) : AreOwned (a.view docs) where
  agree := by
    intro x y x' y' w w' h h' hw hw' number
    obtain ⟨z, r, hp, rfl, -⟩ := exists_of_mem_view hdocs h hw
    obtain ⟨z', r', hp', rfl, -⟩ := exists_of_mem_view hdocs h' hw'
    obtain ⟨rfl, rfl⟩ := hdocs.agree hp hp' number
    exact ⟨rfl, rfl⟩
  same := by
    intro x y x' y' w b w' b' h h' hw hw' number
    obtain ⟨z, r, hp, rfl, behind⟩ := exists_of_mem_view hdocs h hw
    obtain ⟨z', r', hp', rfl, behind'⟩ := exists_of_mem_view hdocs h' hw'
    obtain ⟨r, rfl⟩ := List.head?_eq_some_iff.1 behind
    obtain ⟨r', rfl⟩ := List.head?_eq_some_iff.1 behind'
    rw [List.append_cons] at hp hp'
    obtain ⟨above, rfl⟩ := hdocs.agree hp hp' number
    obtain ⟨rfl, wrappers⟩ := List.append_inj' above rfl
    obtain rfl : w = w' := by simpa using wrappers
    exact ⟨rfl, rfl, rfl⟩
  branch := by
    intro x y w b h hw
    obtain ⟨z, r, hp, -, behind⟩ := exists_of_mem_view hdocs h hw
    obtain ⟨r, rfl⟩ := List.head?_eq_some_iff.1 behind
    obtain ⟨scope, lawful⟩ := hdocs.lawful _ hp
    exact (lawful.branch hw).1
  rising := by
    rw [view, List.pairwise_filterMap]
    refine hdocs.rising.imp_of_mem ?_
    rintro p q hp hq rises o ho o' ho' x y y' w b b' rfl rfl hw
    obtain ⟨scope, lawful⟩ := hdocs.lawful p hp
    obtain ⟨scope', lawful'⟩ := hdocs.lawful q hq
    obtain ⟨z, r, rfl, -, behind⟩ := exists_of_conditional lawful (hdocs.content _ hp) ho hw
    obtain ⟨z', r', rfl, -, behind'⟩ := exists_of_conditional lawful' (hdocs.content _ hq) ho' hw
    obtain ⟨r, rfl⟩ := List.head?_eq_some_iff.1 behind
    obtain ⟨r', rfl⟩ := List.head?_eq_some_iff.1 behind'
    obtain ⟨rfl, -⟩ := hdocs.agree hp hq rfl
    exact rises (z ++ [w]) r r' b b' (List.append_cons z w _) (List.append_cons z w _)
  alone := by
    intro x y f h field s hs
    obtain ⟨p, hp, own⟩ := mem_view.1 h
    obtain ⟨scope, lawful⟩ := hdocs.lawful p hp
    have plain : f.data.entity? = none ∧ f.data.isChain = false := by
      cases hd : f.data <;> simp_all [Tag.field?, Tag.entity?, Tag.isChain]
    obtain ⟨above, t, below, rfl, -, -, ⟨m, hm, -⟩ | ⟨m, r, -, rfl, rfl⟩⟩ :=
      exists_of_seen own plain.1
    · exfalso
      have chain : f ∈ List.filter (fun s : Step Tag => s.data.isChain) above := by simp [hm]
      simp [(List.mem_filter.1 chain).2] at plain
    · have whole : above ++ t :: (m ++ f :: r) = (above ++ t :: m) ++ f :: r := by simp
      rw [whole] at lawful
      cases hd : s.data with
      | field g =>
        have inside := mem_of_mem_untilNested hs (by rw [hd]; rfl)
        rw [← hd]
        exact lawful.field?_below field s inside
      | _ => rfl

end Address

end WorldMarkup
