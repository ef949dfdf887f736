import Mathlib.Data.List.Basic
import WorldMarkup.Proofs.Form.Slots
import WorldMarkup.Proofs.Tree.Reordering

/-!
The final order of steps on the completed paths of a component. Main statements: on every
completed path the entity comes first; where the path leads into a field the field is next, and
then what the path keeps; elsewhere no field follows.
-/

set_option autoImplicit false
set_option relaxedAutoImplicit false

namespace WorldMarkup

open Ownership (untilNested ownedPath? slot?)
open SplitChain

namespace Path

variable (kind : EntityKind) (key : String)

def isAnchor (t : Tag) : Bool := t.isEntityOf kind key || t.category == .field

/-- For each step its place in the final order: the entity, the fields, the conditionals above
any of these. -/
def stepRanks : Path Tag → List (Option Nat)
  | [] => []
  | s :: rest =>
    (if s.data.isEntityOf kind key then some 0
    else if s.data.category = .field then some 1
    else if s.data.isChain && rest.any (fun x => isAnchor kind key x.data) then some 2
    else none) :: stepRanks rest

variable {kind key}

theorem priorities_cons {α : Type} (q₁ q₂ q₃ : Query α) {s : Step α} {p : Path α}
    {b₁ b₂ b₃ : Bool} (h₁ : q₁.marks (s :: p) = b₁ :: q₁.marks p)
    (h₂ : q₂.marks (s :: p) = b₂ :: q₂.marks p) (h₃ : q₃.marks (s :: p) = b₃ :: q₃.marks p) :
    priorities [q₁, q₂, q₃] (s :: p) =
      (if b₁ then some 0 else if b₂ then some 1 else if b₃ then some 2 else none) ::
        priorities [q₁, q₂, q₃] p := by
  simp only [priorities, List.map_cons, List.map_nil, h₁, h₂, h₃, List.length_cons,
    List.range_succ_eq_map, List.map_map, Function.comp_def, List.getD_cons_succ,
    List.getD_cons_zero, List.findIdx?_cons, List.findIdx?_nil]
  refine congrArg (· :: _) ?_
  cases b₁ <;> cases b₂ <;> cases b₃ <;> rfl

section Marks

variable {α : Type} {q₁ q₂ : Query α} {s : Step α} {p : Path α} {b₁ b₂ : Bool}

theorem marks_any_cons (h₁ : q₁.marks (s :: p) = b₁ :: q₁.marks p)
    (h₂ : q₂.marks (s :: p) = b₂ :: q₂.marks p) :
    (Query.any [q₁, q₂]).marks (s :: p) = (b₁ || b₂) :: (Query.any [q₁, q₂]).marks p := by
  simp only [Query.marks, Query.marksEach, List.foldl_cons, List.foldl_nil, h₁, h₂, Query.join,
    List.length_cons, List.replicate_succ, List.zipWith_cons_cons, Bool.false_or]

theorem marks_all_cons (h₁ : q₁.marks (s :: p) = b₁ :: q₁.marks p)
    (h₂ : q₂.marks (s :: p) = b₂ :: q₂.marks p) :
    (Query.all [q₁, q₂]).marks (s :: p) = (b₁ && b₂) :: (Query.all [q₁, q₂]).marks p := by
  simp only [Query.marks, Query.marksEach, List.foldl_cons, List.foldl_nil, h₁, h₂, Query.meet,
    List.length_cons, List.replicate_succ, List.zipWith_cons_cons, Bool.true_and]

theorem marks_before_cons (h : q₁.marks (s :: p) = b₁ :: q₁.marks p) :
    (Query.before .every q₁).marks (s :: p) =
      (q₁.marks p).any id :: (Query.before .every q₁).marks p := by
  simp only [Query.marks, Query.every, Query.marksEach, List.foldl_nil, h, Query.anyLater,
    Query.meet, List.length_cons, List.replicate_succ, List.zipWith_cons_cons, Bool.true_and]

end Marks

theorem marks_anchor_cons (kind : EntityKind) (key : String) (s : Step Tag) (p : Path Tag) :
    (Query.any [WorldQuery.entity kind key, WorldQuery.anyField]).marks (s :: p) =
      isAnchor kind key s.data ::
        (Query.any [WorldQuery.entity kind key, WorldQuery.anyField]).marks p := by
  have h₁ : (WorldQuery.entity kind key).marks (s :: p) =
      s.data.isEntityOf kind key :: (WorldQuery.entity kind key).marks p := rfl
  have h₂ : WorldQuery.anyField.marks (s :: p) =
      decide (s.data.category = .field) :: WorldQuery.anyField.marks p := rfl
  exact marks_any_cons h₁ h₂

theorem any_marks_anchor (kind : EntityKind) (key : String) (p : Path Tag) :
    ((Query.any [WorldQuery.entity kind key, WorldQuery.anyField]).marks p).any id =
      p.any (fun s => isAnchor kind key s.data) := by
  induction p with
  | nil => rfl
  | cons s p ih =>
    rw [marks_anchor_cons, List.any_cons, ih, List.any_cons]
    rfl

theorem priorities_reorderings (p : Path Tag) :
    priorities (Standardize.reorderings kind key) p = stepRanks kind key p := by
  induction p with
  | nil => rfl
  | cons s p ih =>
    have h₁ : (WorldQuery.entity kind key).marks (s :: p) =
        s.data.isEntityOf kind key :: (WorldQuery.entity kind key).marks p := rfl
    have h₂ : WorldQuery.anyField.marks (s :: p) =
        decide (s.data.category = .field) :: WorldQuery.anyField.marks p := rfl
    have hchain : WorldQuery.conditional.marks (s :: p) =
        s.data.isChain :: WorldQuery.conditional.marks p := by
      have hc : (WorldQuery.category .conditional).marks (s :: p) =
        decide (s.data.category = .conditional) ::
          (WorldQuery.category .conditional).marks p := rfl
      have hb : (WorldQuery.category .branch).marks (s :: p) =
        decide (s.data.category = .branch) :: (WorldQuery.category .branch).marks p := rfl
      have heq : (decide (s.data.category = .conditional) ||
          decide (s.data.category = .branch)) = s.data.isChain := by
        cases s.data <;> simp [Tag.category, Tag.isChain]
      rw [← heq]
      exact marks_any_cons hc hb
    have h₃ := marks_all_cons hchain (marks_before_cons (marks_anchor_cons kind key s p))
    rw [stepRanks, ← ih, ← any_marks_anchor]
    have h := priorities_cons _ _ _ h₁ h₂ h₃
    simp only [decide_eq_true_eq] at h
    exact h

/-! ### The window that changes -/

theorem reorder_eq {p : Path Tag} {u v : List (Step Tag × Option Nat)}
    (hp : p.zip (stepRanks kind key p) = u ++ v) (hne : u ≠ [])
    (hfirst : ∀ x ∈ u.head?, x.2.isNone = false) (hlast : ∀ x ∈ u.getLast?, x.2.isNone = false)
    (hv : ∀ x ∈ v, x.2.isNone = true) :
    reorder (Standardize.reorderings kind key) p =
      ((List.range 3).flatMap (fun k => u.filter (fun x => x.2 == some k)) ++
        u.filter (fun x => x.2.isNone) ++ v).map Prod.fst := by
  have window : IsWindow Prod.snd [] u v := by
    refine ⟨fun x hx => Option.isNone_iff_eq_none.1 (hv x hx),
      ⟨_, List.head?_eq_some_head hne, fun none => ?_⟩,
      ⟨_, List.getLast?_eq_some_getLast hne, fun none => ?_⟩⟩
    · have marked := hfirst _ (List.head?_eq_some_head hne)
      rw [none] at marked
      cases marked
    · have marked := hlast _ (List.getLast?_eq_some_getLast hne)
      rw [none] at marked
      cases marked
  have moved : rearrange Prod.snd 3 ([] ++ u ++ v) = [] ++ promote Prod.snd 3 u ++ v :=
    rearrange_of_isWindow window
  rw [List.nil_append, List.nil_append] at moved
  rw [reorder_eq_rearrange, priorities_reorderings, hp]
  exact congrArg (List.map Prod.fst) moved

def ranked (kind : EntityKind) (key : String) (p : Path Tag) : List (Step Tag × Option Nat) :=
  p.zip (stepRanks kind key p)

theorem ranked_above {m r : Path Tag} (hm : ∀ s ∈ m, isAnchor kind key s.data = false)
    (hr : r.any (fun s => isAnchor kind key s.data) = true) :
    ranked kind key (m ++ r) =
      m.map (fun s => (s, if s.data.isChain then some 2 else none)) ++ ranked kind key r := by
  induction m with
  | nil => rfl
  | cons s m ih =>
    have hs := hm s (by simp)
    have hmore := ih (fun x hx => hm x (by simp [hx]))
    simp only [isAnchor, Bool.or_eq_false_iff, beq_eq_false_iff_ne] at hs
    simp only [ranked] at hmore ⊢
    simp [stepRanks, hs.1, hs.2, hr, hmore]

theorem isAnchor_of_isChain {t : Tag} (h : t.isChain = true) : isAnchor kind key t = false := by
  cases t <;> simp_all [Tag.isChain, isAnchor, Tag.isEntityOf, Tag.category]

theorem ranked_chain {c r : Path Tag} (hc : ∀ s ∈ c, s.data.isChain = true)
    (hr : r.any (fun s => isAnchor kind key s.data) = true) :
    ranked kind key (c ++ r) = c.map (·, some 2) ++ ranked kind key r := by
  rw [ranked_above (fun s hs => isAnchor_of_isChain (hc s hs)) hr]
  exact congrArg (· ++ _) (List.map_congr_left (fun s hs => by rw [if_pos (hc s hs)]))

theorem ranked_target {t : Step Tag} {r : Path Tag} (ht : t.data.isEntityOf kind key = true) :
    ranked kind key (t :: r) = (t, some 0) :: ranked kind key r := by
  simp [ranked, stepRanks, ht]

theorem ranked_field {x : Step Tag} {r : Path Tag} (hx : x.data.category = .field) :
    ranked kind key (x :: r) = (x, some 1) :: ranked kind key r := by
  have hentity : x.data.isEntityOf kind key = false := by
    cases hd : x.data <;> simp_all [Tag.category, Tag.isEntityOf]
  simp [ranked, stepRanks, hentity, hx]

theorem ranked_rest {d : Path Tag} (hd : ∀ s ∈ d, isAnchor kind key s.data = false) :
    ranked kind key d = d.map (·, none) := by
  induction d with
  | nil => rfl
  | cons s d ih =>
    have hs := hd s (by simp)
    have hmore := ih (fun x hx => hd x (by simp [hx]))
    have hany : d.any (fun x => isAnchor kind key x.data) = false :=
      List.any_eq_false.2 (fun x hx => by simp [hd x (by simp [hx])])
    simp only [isAnchor, Bool.or_eq_false_iff, beq_eq_false_iff_ne] at hs
    simp only [ranked] at hmore ⊢
    simp [stepRanks, hs.1, hs.2, hany, hmore]

end Path

namespace Address

variable {a : Address}

/-- The completed paths of a component: conditionals, the entity, and then either conditionals, a
field and what the path holds there, or else no field. -/
inductive Routes (a : Address) : Path Tag → Prop
  | into {c m d : Path Tag} {t x : Step Tag} (above : ∀ s ∈ c, s.data.isChain = true)
      (target : a.isTarget t.data = true) (below : ∀ s ∈ m, s.data.isChain = true)
      {g : FieldKind} (field : x.data = .field g) (declared : a.kind.hasField g = true)
      (inner : ∀ s ∈ d, s.data.isKept = true) : Routes a (c ++ t :: (m ++ x :: d))
  | beside {c m : Path Tag} {t : Step Tag} (above : ∀ s ∈ c, s.data.isChain = true)
      (target : a.isTarget t.data = true)
      (below : ∀ s ∈ m, s.data.field? = none ∧ a.isTarget s.data = false)
      (first : ∀ s ∈ (c ++ m).head?,
        s.data.category ∈ [Category.conditional, .listItem, .entity]) : Routes a (c ++ t :: m)

/-- Where a path leads into a field, the conditionals above the field stand in it before anything
else that stood above it. -/
theorem reorder_through {c m d : Path Tag} {t x : Step Tag}
    (above : ∀ s ∈ c, s.data.isChain = true) (target : a.isTarget t.data = true)
    (below : ∀ s ∈ m, Path.isAnchor a.kind a.key s.data = false) (field : x.data.category = .field)
    (inner : ∀ s ∈ d, Path.isAnchor a.kind a.key s.data = false) :
    Path.reorder (Standardize.reorderings a.kind a.key) (c ++ t :: (m ++ x :: d)) =
      t :: x :: (c ++ List.filter (fun s => s.data.isChain) m ++
        List.filter (fun s => !s.data.isChain) m ++ d) := by
  have hxa : Path.isAnchor a.kind a.key x.data = true := by simp [Path.isAnchor, field]
  have hta : Path.isAnchor a.kind a.key t.data = true := by
    simp only [Path.isAnchor, Bool.or_eq_true]
    exact .inl target
  have hranked : (c ++ t :: (m ++ x :: d)).zip
      (Path.stepRanks a.kind a.key (c ++ t :: (m ++ x :: d))) =
      (c.map (·, some 2) ++ (t, some 0) ::
        m.map (fun s => (s, if s.data.isChain then some 2 else none)) ++ [(x, some 1)]) ++
        d.map (·, none) := by
    have hany : List.any (t :: (m ++ x :: d))
        (fun s : Step Tag => Path.isAnchor a.kind a.key s.data) = true := by simp [hta]
    have hsteps := Path.ranked_chain above hany
    rw [Path.ranked_target target, Path.ranked_above below (by simp [hxa]), Path.ranked_field field,
      Path.ranked_rest inner] at hsteps
    simpa [Path.ranked] using hsteps
  rw [Path.reorder_eq hranked (by simp) ?_ ?_ (by simp)]
  · have free (s : Step Tag) : (if s.data.isChain then some 2 else none : Option Nat).isNone =
        !s.data.isChain := by
      cases s.data.isChain <;> rfl
    have none {k : Nat} (hk : k ≠ 2) (s : Step Tag) :
        ((if s.data.isChain then some 2 else Option.none) == some k) = false := by
      cases s.data.isChain <;> simp [Ne.symm hk]
    have ranked (s : Step Tag) :
        ((if s.data.isChain then some 2 else Option.none) == some 2) = s.data.isChain := by
      cases s.data.isChain <;> rfl
    simp [List.range_succ, List.filter_map, Function.comp_def, free, none, ranked]
  · cases c <;> simp
  · rw [List.getLast?_concat]
    simp

theorem reorder_into {c m d : Path Tag} {t x : Step Tag} (above : ∀ s ∈ c, s.data.isChain = true)
    (target : a.isTarget t.data = true) (below : ∀ s ∈ m, s.data.isChain = true)
    {g : FieldKind} (field : x.data = .field g) (inner : ∀ s ∈ d, s.data.isKept = true) :
    Path.reorder (Standardize.reorderings a.kind a.key) (c ++ t :: (m ++ x :: d)) =
      t :: x :: (c ++ m ++ d) := by
  have plain (s : Step Tag) (hs : s ∈ d) : Path.isAnchor a.kind a.key s.data = false := by
    have := inner s hs
    cases hd : s.data <;>
      simp_all [Tag.isKept, Tag.isChain, Tag.category, Path.isAnchor, Tag.isEntityOf]
  have chains : List.filter (fun s => s.data.isChain) m = m := List.filter_eq_self.2 below
  have others : List.filter (fun s => !s.data.isChain) m = [] :=
    List.filter_eq_nil_iff.2 (fun s hs => by simp [below s hs])
  rw [reorder_through above target (fun s hs => Path.isAnchor_of_isChain (below s hs))
    (by rw [field]; rfl) plain, chains, others, List.append_nil]

theorem reorder_beside {c m : Path Tag} {t : Step Tag} (above : ∀ s ∈ c, s.data.isChain = true)
    (target : a.isTarget t.data = true)
    (below : ∀ s ∈ m, s.data.field? = none ∧ a.isTarget s.data = false) :
    Path.reorder (Standardize.reorderings a.kind a.key) (c ++ t :: m) = t :: (c ++ m) := by
  have hta : Path.isAnchor a.kind a.key t.data = true := by
    simp only [Path.isAnchor, Bool.or_eq_true]
    exact .inl target
  have hm (s : Step Tag) (hs : s ∈ m) : Path.isAnchor a.kind a.key s.data = false := by
    obtain ⟨hf, ht⟩ := below s hs
    have ht : s.data.isEntityOf a.kind a.key = false := ht
    cases hd : s.data <;> simp_all [Tag.category, Path.isAnchor, Tag.field?]
  have hranked : (c ++ t :: m).zip (Path.stepRanks a.kind a.key (c ++ t :: m)) =
      (c.map (·, some 2) ++ [(t, some 0)]) ++ m.map (·, none) := by
    have hany : List.any (t :: m)
        (fun s : Step Tag => Path.isAnchor a.kind a.key s.data) = true := by simp [hta]
    have hsteps := Path.ranked_chain above hany
    rw [Path.ranked_target target, Path.ranked_rest hm] at hsteps
    simpa [Path.ranked] using hsteps
  rw [Path.reorder_eq hranked (by simp) ?_ ?_ (by simp)]
  · simp [List.range_succ, List.filter_map, Function.comp_def]
  · cases c <;> simp
  · rw [List.getLast?_concat]
    simp

theorem findSome?_chain {c r : Path Tag} (hc : ∀ s ∈ c, s.data.isChain = true) :
    slot? a.kind (c ++ r) = slot? a.kind r := by
  have hnone : slot? a.kind c = none := by
    refine List.findSome?_eq_none_iff.2 (fun s hs => ?_)
    have := hc s hs
    cases hd : s.data <;> simp_all [Tag.isChain, Tag.field?]
  simp only [slot?] at hnone
  simp [slot?, List.findSome?_append, hnone]

theorem kept_chain {c : Path Tag} (hc : ∀ s ∈ c, s.data.isChain = true) : Path.kept c = c :=
  List.filter_eq_self.2 (fun s hs => isKept_of_isChain (hc s hs))

/-- In a field the final order is the entity, the field, and what the path keeps. -/
theorem Routes.into_field {p : Path Tag} (h : a.Routes p) {g : FieldKind}
    (hslot : slot? a.kind p = some g) :
    ∃ t x, a.isTarget t.data = true ∧ x.data = .field g ∧ x ∈ p ∧
      Path.reorder (Standardize.reorderings a.kind a.key) p = t :: x :: p.kept := by
  cases h with
  | @into c m d t x above target below g' field declared inner =>
    have htf : t.data.field? = none := by
      obtain ⟨e, he, -, -⟩ := exists_entity_of_isTarget target
      rw [he]
      rfl
    have htk : t.data.isKept = false := by
      obtain ⟨e, he, -, -⟩ := exists_entity_of_isTarget target
      rw [he]
      rfl
    have hslot' : slot? a.kind (c ++ t :: (m ++ x :: d)) = some g' := by
      have hm := findSome?_chain (a := a) (r := x :: d) below
      rw [findSome?_chain above]
      have hxf : x.data.field? = some g' := by rw [field]; rfl
      simp only [slot?] at hm ⊢
      simp [htf, hm, hxf, declared]
    obtain rfl : g' = g := Option.some.inj (hslot'.symm.trans hslot)
    refine ⟨t, x, target, field, by simp, ?_⟩
    have hxk : x.data.isKept = false := by rw [field]; rfl
    have hd : Path.kept d = d := List.filter_eq_self.2 inner
    have hcons {s : Step Tag} {q : Path Tag} (hs : s.data.isKept = false) :
        Path.kept (s :: q) = Path.kept q := by simp [Path.kept, hs]
    rw [reorder_into above target below field inner, kept_append, hcons htk, kept_append, hcons hxk,
      hd, kept_chain above, kept_chain below, List.append_assoc]
  | @beside c m t above target below first =>
    exfalso
    have hnone : slot? a.kind (c ++ t :: m) = none := by
      rw [findSome?_chain above]
      refine List.findSome?_eq_none_iff.2 (fun s hs => ?_)
      rcases List.mem_cons.1 hs with rfl | hs
      · obtain ⟨e, he, -, -⟩ := exists_entity_of_isTarget target
        simp [he, Tag.field?]
      · simp [(below s hs).1]
    rw [hnone] at hslot
    exact absurd hslot (by simp)

theorem Routes.elsewhere {p : Path Tag} (h : a.Routes p) (hslot : slot? a.kind p = none) :
    ∃ t r, a.isTarget t.data = true ∧
      Path.reorder (Standardize.reorderings a.kind a.key) p = t :: r ∧
      ∀ s ∈ r.head?, s ∈ p ∧ s.data.field? = none ∧
        s.data.category ∈ [Category.conditional, .listItem, .entity] := by
  cases h with
  | @into c m d t x above target below g field declared inner =>
    exfalso
    have := List.findSome?_eq_none_iff.1 hslot x (by simp)
    simp [field, Tag.field?, declared] at this
  | @beside c m t above target below first =>
    refine ⟨t, c ++ m, target, reorder_beside above target below, ?_⟩
    intro s hs
    have hmem : s ∈ c ++ m := List.mem_of_mem_head? hs
    refine ⟨?_, ?_, first s hs⟩
    · rcases List.mem_append.1 hmem with h | h <;> simp [h]
    · have := first s hs
      cases hd : s.data <;> simp_all [Tag.category, Tag.field?]

/-! ### What is seen of a path -/

/-- Steps of conditionals, the first of them a conditional. -/
structure IsChoices (p : Path Tag) : Prop where
  chain : ∀ s ∈ p, s.data.isChain = true
  first : ∀ s ∈ p.head?, s.data = .conditional

theorem IsChoices.nil : IsChoices [] := ⟨by simp, by simp⟩

theorem IsChoices.cons {w b : Step Tag} {p : Path Tag} (hw : w.data = .conditional)
    (hb : b.data.category = .branch) (h : IsChoices p) : IsChoices (w :: b :: p) where
  chain := by
    intro s hs
    simp only [List.mem_cons] at hs
    rcases hs with rfl | rfl | hs
    · rw [hw]
      rfl
    · exact isChain_of_branch hb
    · exact h.chain s hs
  first := by simpa using hw

theorem IsChoices.left {p q : Path Tag} (h : IsChoices (p ++ q)) : IsChoices p where
  chain := fun s hs => h.chain s (by simp [hs])
  first := by
    intro s hs
    cases p with
    | nil => simp at hs
    | cons x p => exact h.first s hs

theorem isChoices_filter {p : Path Tag} (h : p.IsTrunk) :
    IsChoices (List.filter (fun s => s.data.isChain) p) := by
  induction h with
  | nil => exact .nil
  | @entity s rest hs _ ih =>
    have hchain : s.data.isChain = false := by
      cases hd : s.data <;> simp_all [Tag.entity?, Tag.isChain]
    simpa [hchain] using ih
  | @choice w b rest hw hb _ ih =>
    have hwc : w.data.isChain = true := by rw [hw]; rfl
    simpa [List.filter_cons, hwc, isChain_of_branch hb] using IsChoices.cons hw hb ih

/-- What is seen below the component: conditionals, and then perhaps a field with what it holds, a
list item or a reference. -/
theorem exists_of_untilNested {k : EntityKind} {q : Path Tag} (h : Path.Runs (some k) q) :
    ∃ m rest, untilNested q = m ++ rest ∧ IsChoices m ∧
      (rest = [] ∨
        (∃ x g d, rest = x :: d ∧ x.data = .field g ∧ k.hasField g = true ∧
          ∀ s ∈ d, s.data.isKept = true) ∨
        ∃ y, rest = [y] ∧ y.data.category ∈ [Category.listItem, .entity]) := by
  generalize hc : some k = c at h
  induction h with
  | stop => exact ⟨[], [], rfl, .nil, .inl rfl⟩
  | @entity c s rest e hs _ _ =>
    have hcut : untilNested (s :: rest) = [⟨.entity e.withoutSource, {}, s.origin⟩] := by
      simp [untilNested, hs, Tag.entity?, Tag.withoutSource]
    exact ⟨[], _, hcut, .nil, .inr (.inr ⟨_, rfl, by simp [Tag.category]⟩)⟩
  | @choice c w b rest hw hb _ ih =>
    have hwe : w.data.entity? = none := by rw [hw]; rfl
    have hbe : b.data.entity? = none := by
      cases hd : b.data <;> simp_all [Tag.category, Tag.entity?]
    obtain ⟨m, tail, hcut, hm, hcase⟩ := ih hc
    refine ⟨w :: b :: m, tail, ?_, hm.cons hw hb, hcase⟩
    simp [untilNested, hwe, hbe, hcut]
  | @field k' s rest g hs hg inner =>
    obtain rfl : k = k' := by simpa using hc
    have hcut : untilNested (s :: rest) = s :: rest := by
      refine untilNested_eq_self (fun y hy => ?_)
      rcases List.mem_cons.1 hy with rfl | hy
      · simp [hs, Tag.entity?]
      · exact entity?_of_isKept (inner y hy)
    exact ⟨[], _, hcut, .nil, .inr (.inl ⟨s, g, rest, rfl, hs, hg, inner⟩)⟩
  | @item k' s hs =>
    have he : s.data.entity? = none := by
      cases hd : s.data <;> simp_all [Tag.category, Tag.entity?]
    exact ⟨[], [s], by simp [untilNested, he], .nil, .inr (.inr ⟨s, rfl, by simp [hs]⟩)⟩

theorem isTarget_untilNested {q : Path Tag} (h : ∀ s ∈ q, a.isTarget s.data = false) :
    ∀ s ∈ untilNested q, a.isTarget s.data = false := by
  induction q with
  | nil => simp [untilNested]
  | cons x q ih =>
    rw [untilNested]
    intro s hs
    split at hs
    · obtain rfl := List.mem_singleton.1 hs
      have := h x (by simp)
      cases hd : x.data <;> simp_all [isTarget, Tag.isEntityOf, Tag.withoutSource]
    · rcases List.mem_cons.1 hs with rfl | hs
      · exact h s (by simp)
      · exact ih (fun y hy => h y (by simp [hy])) s hs

/-- What follows a conditional above all fields is a branch. -/
theorem branch_after_conditional {c : Option EntityKind} {x y : Path Tag} {w b : Step Tag}
    (hw : w.data = .conditional) (hx : ∀ s ∈ x, s.data.field? = none)
    (h : Path.Runs c (x ++ w :: b :: y)) : b.data.category = .branch := by
  generalize hp : x ++ w :: b :: y = p at h
  induction h generalizing x with
  | stop => simp at hp
  | @entity c s rest e hs _ ih =>
    rcases x with _ | ⟨z, x⟩
    · simp only [List.nil_append, List.cons.injEq] at hp
      obtain ⟨rfl, -⟩ := hp
      simp [hw] at hs
    · simp only [List.cons_append, List.cons.injEq] at hp
      exact ih (fun s hs => hx s (by simp [hs])) hp.2
  | @choice c v d rest hv hd _ ih =>
    rcases x with _ | ⟨z, _ | ⟨z', x⟩⟩
    · simp only [List.nil_append, List.cons.injEq] at hp
      obtain ⟨rfl, rfl, rfl⟩ := hp
      exact hd
    · simp only [List.cons_append, List.nil_append, List.cons.injEq] at hp
      obtain ⟨rfl, rfl, -⟩ := hp
      simp [hw, Tag.category] at hd
    · simp only [List.cons_append, List.cons.injEq] at hp
      exact ih (fun s hs => hx s (by simp [hs])) hp.2.2
  | @field k s rest g hs _ inner =>
    rcases x with _ | ⟨z, x⟩
    · simp only [List.nil_append, List.cons.injEq] at hp
      obtain ⟨rfl, -⟩ := hp
      simp [hw] at hs
    · simp only [List.cons_append, List.cons.injEq] at hp
      obtain ⟨rfl, -⟩ := hp
      have := hx z (by simp)
      simp [hs, Tag.field?] at this
  | @item k s hs =>
    rcases x with _ | ⟨z, x⟩
    · simp at hp
    · simp at hp

theorem exists_of_ownedPath? {p o : Path Tag} (h : Path.Runs none p)
    (ho : ownedPath? a.kind a.key p = some o) :
    ∃ c t m rest, o = c ++ t :: (m ++ rest) ∧ IsChoices c ∧ a.isTarget t.data = true ∧
      IsChoices m ∧
      (rest = [] ∨
        (∃ x g d, rest = x :: d ∧ x.data = .field g ∧ a.kind.hasField g = true ∧
          ∀ s ∈ d, s.data.isKept = true) ∨
        ∃ y, rest = [y] ∧ y.data.category ∈ [Category.listItem, .entity] ∧
          a.isTarget y.data = false) := by
  obtain ⟨above, t, below, rfl, ht, hbelow, hcase⟩ := ownedPath?_cases ho
  obtain ⟨e, he, hkind, -⟩ := exists_entity_of_isTarget ht
  obtain ⟨hA, hB⟩ := h.split he
  rw [hkind] at hB
  rcases hcase with ⟨-, rfl⟩ | ⟨-, rfl⟩
  · exact ⟨[], t, [], [], rfl, .nil, ht, .nil, .inl rfl⟩
  · obtain ⟨m, rest, hcut, hm, hrest⟩ := exists_of_untilNested hB
    refine ⟨_, t, m, rest, by rw [hcut], isChoices_filter hA, ht, hm, ?_⟩
    rcases hrest with h | h | ⟨y, rfl, hy⟩
    · exact .inl h
    · exact .inr (.inl h)
    · refine .inr (.inr ⟨y, rfl, hy, isTarget_untilNested hbelow y ?_⟩)
      rw [hcut]
      simp

/-! ### Every completed path routes -/

theorem IsChoices.beside {p : Path Tag} (h : IsChoices p) :
    ∀ s ∈ p, s.data.field? = none ∧ a.isTarget s.data = false := by
  intro s hs
  have := h.chain s hs
  cases hd : s.data <;> simp_all [Tag.isChain, Tag.field?, isTarget, Tag.isEntityOf]

theorem IsChoices.first_append {p q : Path Tag} (hp : IsChoices p) (hq : IsChoices q) :
    ∀ s ∈ (p ++ q).head?, s.data.category ∈ [Category.conditional, .listItem, .entity] := by
  intro s hs
  have hcond : s.data = .conditional := by
    cases p with
    | nil => exact hq.first s hs
    | cons x p => exact hp.first s hs
  simp [hcond, Tag.category]

theorem routes_ownedPath? {p o : Path Tag} (h : Path.Runs none p)
    (ho : ownedPath? a.kind a.key p = some o) : a.Routes o := by
  obtain ⟨c, t, m, rest, rfl, hc, ht, hm, hrest⟩ := exists_of_ownedPath? h ho
  rcases hrest with rfl | ⟨x, g, d, rfl, hx, hg, hd⟩ | ⟨y, rfl, hy, hyt⟩
  · rw [List.append_nil]
    exact .beside hc.chain ht hm.beside (hc.first_append hm)
  · exact .into hc.chain ht hm.chain hx hg hd
  · have hyf : y.data.field? = none := by
      cases hd : y.data <;> simp_all [Tag.category, Tag.field?]
    refine .beside hc.chain ht ?_ ?_
    · intro s hs
      rcases List.mem_append.1 hs with hs | hs
      · exact hm.beside s hs
      · rw [List.mem_singleton.1 hs]
        exact ⟨hyf, hyt⟩
    · intro s hs
      rw [← List.append_assoc] at hs
      rcases hcm : c ++ m with _ | ⟨z, l⟩
      · rw [hcm] at hs
        obtain rfl : y = s := by simpa using hs
        exact List.mem_cons_of_mem _ hy
      · rw [hcm] at hs
        exact hc.first_append hm s (by rw [hcm]; exact hs)

theorem routes_choices {c m f : Path Tag} {t : Step Tag} (hc : IsChoices c)
    (ht : a.isTarget t.data = true) (hm : IsChoices m)
    (hf : f = [] ∨ ∃ x g, f = [x] ∧ x.data = .field g ∧ a.kind.hasField g = true) :
    a.Routes (c ++ t :: (m ++ f)) := by
  rcases hf with rfl | ⟨x, g, rfl, hx, hg⟩
  · rw [List.append_nil]
    exact .beside hc.chain ht hm.beside (hc.first_append hm)
  · exact .into hc.chain ht hm.chain hx hg (by simp)

/-- What is above a branch that stands above all fields. -/
theorem exists_of_site {p o : Path Tag} (h : Path.Runs none p)
    (ho : ownedPath? a.kind a.key p = some o) {s : Site} (hs : s ∈ sites o)
    (hno : ∀ x ∈ s.path, x.data.field? = none) :
    IsChoices s.path ∨
      ∃ c t m, s.path = c ++ t :: m ∧ IsChoices c ∧ a.isTarget t.data = true ∧ IsChoices m := by
  obtain ⟨u, w, b, v, hsplit, hw, -, -, hpath⟩ := exists_of_mem_sitesFrom hs
  rw [List.nil_append] at hpath
  have hb : b.data.category = .branch := by
    have hruns := runs_ownedPath? h ho
    rw [hsplit] at hruns
    exact branch_after_conditional hw (fun x hx => hno x (by rw [hpath]; simp [hx])) hruns
  obtain ⟨c, t, m, rest, hco, hc, ht, hm, hrest⟩ := exists_of_ownedPath? h ho
  have heq : s.path ++ v = c ++ t :: (m ++ rest) := by
    rw [hpath, ← hco, hsplit]
    simp
  rcases List.append_eq_append_iff.1 heq with ⟨z, hz, -⟩ | ⟨z, hz, hrest'⟩
  · rw [hz] at hc
    exact .inl hc.left
  · cases z with
    | nil =>
      rw [List.append_nil] at hz
      rw [hz]
      exact .inl hc
    | cons y z =>
      simp only [List.cons_append, List.cons.injEq] at hrest'
      obtain ⟨rfl, hrest'⟩ := hrest'
      refine .inr ⟨c, t, z, hz, hc, ht, ?_⟩
      -- The branch does not stand behind a field, an item or a reference.
      rcases List.append_eq_append_iff.1 hrest' with ⟨l, rfl, hl⟩ | ⟨l, rfl, -⟩
      · cases l with
        | nil => simpa using hm
        | cons y l =>
          exfalso
          have hmem : y ∈ s.path := by
            rw [hz]
            simp
          rcases hrest with rfl | ⟨x, g, d, rfl, hx, -, -⟩ | ⟨x, rfl, hx, -⟩
          · simp at hl
          · simp only [List.cons_append, List.cons.injEq] at hl
            obtain ⟨rfl, -⟩ := hl
            have := hno x hmem
            simp [hx, Tag.field?] at this
          · simp only [List.cons_append, List.cons.injEq] at hl
            obtain ⟨rfl, hl⟩ := hl
            obtain rfl : l = [] := (List.append_eq_nil_iff.1 hl.symm).1
            have hlast : u ++ [w, b] = (c ++ t :: m) ++ [x] := by
              rw [← hpath, hz]
              simp
            have hxb := congrArg List.getLast? hlast
            simp only [List.getLast?_append, List.getLast?_cons_cons, List.getLast?_singleton,
              Option.some_or, Option.some.injEq] at hxb
            rw [← hxb] at hx
            simp [hb] at hx
      · exact hm.left

section Placeholders

variable {docs : List (Path Tag)}

theorem targetStep_isSome (hdocs : AreContent docs) {o : Path Tag} (ho : o ∈ a.view docs) :
    ∃ t, targetStep a.kind a.key (a.view docs) = some t ∧ a.isTarget t.data = true := by
  obtain ⟨p, hp, hown⟩ := mem_view.1 ho
  obtain ⟨c, t, m, rest, rfl, -, ht, -, -⟩ := exists_of_ownedPath? (hdocs.runs p hp) hown
  rcases hfind : targetStep a.kind a.key (a.view docs) with _ | t'
  · have := List.find?_eq_none.1 hfind t (List.mem_flatten.2 ⟨_, ho, by simp⟩)
    exact absurd ht this
  · exact ⟨t', rfl, targetStep_isTarget hfind⟩

theorem fieldStep_of_lacking {s : Site} {r : Nat × Slot}
    (hr : r ∈ lacking a.kind (a.view docs) s) :
    (r.2.bind (fieldStep a.kind (a.view docs))).toList = [] ∨
      ∃ x g, (r.2.bind (fieldStep a.kind (a.view docs))).toList = [x] ∧ x.data = .field g ∧
        a.kind.hasField g = true := by
  have hreach : r ∈ reach a.kind (a.view docs) := by
    simp only [lacking, List.mem_filter] at hr
    exact hr.1.1
  obtain ⟨q, hq, hslot, -⟩ := exists_of_mem_reach hreach
  rcases hr2 : r.2 with _ | g
  · exact .inl rfl
  · obtain ⟨x, hx, hxg, hg⟩ := fieldStep_spec ⟨q, hq, hslot.trans hr2⟩
    refine .inr ⟨x, g, by simp [hx], ?_, hg⟩
    cases hd : x.data <;> simp_all [Tag.field?]

theorem routes_placeholder (hdocs : AreContent docs) {o : Path Tag} (ho : o ∈ a.view docs)
    {s : Site} (hs : s ∈ sites o) {r : Nat × Slot} (hr : r ∈ lacking a.kind (a.view docs) s) :
    a.Routes (placeholder a.kind a.key (targetStep a.kind a.key (a.view docs))
      (r.2.bind (fieldStep a.kind (a.view docs))) s.path) := by
  obtain ⟨p, hp, hown⟩ := mem_view.1 ho
  have hno := field?_of_lacking hdocs ho hs hr
  have hfree {q : Path Tag} (hq : ∀ x ∈ q, x.data.field? = none) :
      q.any (fun x => x.data.field?.isSome) = false :=
    List.any_eq_false.2 (fun x hx => by simp [hq x hx])
  rcases exists_of_site (hdocs.runs p hp) hown hs hno with hc | ⟨c, t, m, hpath, hc, ht, hm⟩
  · obtain ⟨t, hstep, ht⟩ := targetStep_isSome hdocs ho
    have hnone : s.path.any (fun x => x.data.isEntityOf a.kind a.key) = false :=
      List.any_eq_false.2 (fun x hx => by
        have := (hc.beside (a := a) x hx).2
        simpa [isTarget] using this)
    have htf : t.data.field? = none := by
      obtain ⟨e, he, -, -⟩ := exists_entity_of_isTarget ht
      rw [he]
      rfl
    have hpath : List.any (s.path ++ [t]) (fun x => x.data.field?.isSome) = false := by
      rw [List.any_append, hfree hno]
      simp [htf]
    have hroute := routes_choices hc ht .nil (fieldStep_of_lacking hr)
    simpa [placeholder, hnone, hstep, hpath] using hroute
  · have hsome : s.path.any (fun x => x.data.isEntityOf a.kind a.key) = true := by
      rw [hpath, List.any_eq_true]
      exact ⟨t, by simp, ht⟩
    have hroute := routes_choices hc ht hm (fieldStep_of_lacking hr)
    rw [← List.cons_append, ← List.append_assoc, ← hpath] at hroute
    simpa [placeholder, hsome, hfree hno] using hroute

theorem mem_laid {ps : List (Path Tag)} {paths : List (Path Tag)} {seen : List Nat} {p : Path Tag}
    (h : p ∈ laid a.kind a.key paths seen ps) :
    p ∈ ps ∨ ∃ o ∈ ps, ∃ s ∈ sites o, p ∈ standIns a.kind a.key paths s := by
  induction ps generalizing seen with
  | nil => simp [laid] at h
  | cons o ps ih =>
    simp only [laid, List.mem_append] at h
    rcases h with (h | h) | h
    · split at h
      · exact .inl (by simp [List.mem_singleton.1 h])
      · simp at h
    · obtain ⟨s, hs, hp⟩ := List.mem_flatMap.1 h
      exact .inr ⟨o, by simp, s, (mem_of_mem_firsts hs).1, hp⟩
    · rcases ih h with h | ⟨o', ho', h⟩
      · exact .inl (by simp [h])
      · exact .inr ⟨o', by simp [ho'], h⟩

theorem routes_of_mem_complete (hdocs : AreContent docs) {p : Path Tag}
    (h : p ∈ complete a.kind a.key (a.view docs)) : a.Routes p := by
  rw [complete_eq_laid] at h
  rcases mem_laid h with h | ⟨o, ho, s, hs, h⟩
  · obtain ⟨q, hq, hown⟩ := mem_view.1 h
    exact routes_ownedPath? (hdocs.runs q hq) hown
  · obtain ⟨r, hr, rfl⟩ := List.mem_map.1 h
    exact routes_placeholder hdocs ho hs hr

theorem mem_placeholder {target field : Option (Step Tag)} {p : Path Tag} {s : Step Tag}
    (h : s ∈ placeholder a.kind a.key target field p) :
    s ∈ p ∨ s ∈ target.toList ∨ s ∈ field.toList := by
  have hlast (q : Path Tag) (hq : s ∈ (if q.any (fun x => x.data.field?.isSome) then q
      else q ++ field.toList)) : s ∈ q ∨ s ∈ field.toList := by
    split at hq
    · exact .inl hq
    · exact List.mem_append.1 hq
  rcases hlast _ h with h | h
  · split at h
    · exact .inl h
    · rcases List.mem_append.1 h with h | h
      · exact .inl h
      · exact .inr (.inl h)
  · exact .inr (.inr h)

/-- The numbers of content paths with the fields that they are of. -/
def Labels (docs : List (Path Tag)) (number : Nat) (f : Option FieldKind) : Prop :=
  ∃ p ∈ docs, ∃ x ∈ p, x.origin = number ∧ x.data.field? = f

theorem sublist_untilNested (q : Path Tag) :
    ((untilNested q).map (fun s => (s.origin, s.data.field?))).Sublist
      (q.map (fun s => (s.origin, s.data.field?))) := by
  induction q with
  | nil => exact .slnil
  | cons s q ih =>
    rw [untilNested]
    split
    · have same : s.data.withoutSource.field? = s.data.field? := by cases s.data <;> rfl
      simp [same]
    · exact ih.cons_cons _

theorem sublist_ownedPath? {p o : Path Tag} (ho : ownedPath? a.kind a.key p = some o) :
    (o.map (fun s => (s.origin, s.data.field?))).Sublist
      (p.map (fun s => (s.origin, s.data.field?))) := by
  obtain ⟨above, t, below, rfl, -, -, ⟨-, rfl⟩ | ⟨-, rfl⟩⟩ := ownedPath?_cases ho
  · simp
  · rw [List.map_append, List.map_append]
    exact (List.filter_sublist.map _).append ((sublist_untilNested below).cons_cons _)

theorem labels_of_mem_view {o : Path Tag} (ho : o ∈ a.view docs) {s : Step Tag} (hs : s ∈ o) :
    Labels docs s.origin s.data.field? := by
  obtain ⟨p, hp, hown⟩ := mem_view.1 ho
  obtain ⟨x, hx, same⟩ :=
    List.mem_map.1 ((sublist_ownedPath? hown).subset (List.mem_map_of_mem hs))
  exact ⟨p, hp, x, hx, congrArg Prod.fst same, congrArg Prod.snd same⟩

theorem exists_of_mem_complete {p : Path Tag} (h : p ∈ complete a.kind a.key (a.view docs))
    {s : Step Tag} (hs : s ∈ p) : ∃ o ∈ a.view docs, s ∈ o := by
  rw [complete_eq_laid] at h
  rcases mem_laid h with h | ⟨o, ho, x, hx, h⟩
  · exact ⟨p, h, hs⟩
  · obtain ⟨r, hr, rfl⟩ := List.mem_map.1 h
    obtain ⟨u, w, b, v, hsplit, -, -, -, hpath⟩ := exists_of_mem_sitesFrom hx
    rcases mem_placeholder hs with h | h | h
    · refine ⟨o, ho, ?_⟩
      rw [hpath] at h
      rw [hsplit]
      simp only [List.nil_append, List.mem_append, List.mem_cons, List.not_mem_nil, or_false] at h
      rcases h with h | rfl | rfl <;> simp [*]
    · exact List.mem_flatten.1 (List.mem_of_find?_eq_some (Option.mem_toList.1 h))
    · obtain ⟨g, -, hg⟩ := Option.bind_eq_some_iff.1 (Option.mem_toList.1 h)
      obtain ⟨q, hq, hsq⟩ := Option.bind_eq_some_iff.1 hg
      exact ⟨q, List.mem_of_find?_eq_some hq, List.mem_of_find?_eq_some hsq⟩

theorem labels_of_mem_complete {p : Path Tag} (h : p ∈ complete a.kind a.key (a.view docs))
    {s : Step Tag} (hs : s ∈ p) : Labels docs s.origin s.data.field? := by
  obtain ⟨o, ho, hso⟩ := exists_of_mem_complete h hs
  exact labels_of_mem_view ho hso

end Placeholders

end Address

end WorldMarkup
