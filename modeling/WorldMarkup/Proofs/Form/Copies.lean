import Mathlib
import WorldMarkup.Proofs.Form.Nesting
import WorldMarkup.Proofs.Form.Targets

/-!
Conditionals that are split over the slots of a component. Main statement: completion keeps the
paths in order, but for those that end at an empty branch of a conditional that has content
elsewhere; what it adds are branches, led to the entity and a field; and then each copy of a
conditional has all its branches, in their order.
-/

set_option autoImplicit false
set_option relaxedAutoImplicit false

namespace WorldMarkup

open Ownership (slot? ownedPath?)

namespace SplitChain

/-! ### What completion does -/

def Passes (w : Nat) (p : Path Tag) : Prop := ∃ s ∈ p, s.data = .conditional ∧ s.origin = w

section

variable (kind : EntityKind) (key : String) (paths : List (Path Tag))

/-- The path leads into no field and ends at an empty branch of the conditional. -/
def Floats (w : Nat) (p : Path Tag) : Prop :=
  slot? kind p = none ∧ ∃ x s b, p = x ++ [s, b] ∧ s.data = .conditional ∧
    b.data.category = .branch ∧ s.origin = w

/-- The path floats, and a path that does not leads through its last conditional. -/
def IsDropped (p : Path Tag) : Prop :=
  ∃ w, Floats kind w p ∧ ∃ q ∈ paths, Passes w q ∧ ∀ v, ¬ Floats kind v q

/-- The path leads down to a branch, and from there to the entity, a field, or both. -/
def IsAdded (q : Path Tag) : Prop :=
  ∃ (x y : Path Tag) (w b : Step Tag) (target field : Option (Step Tag)),
    x ++ w :: b :: y ∈ paths ∧ w.data = .conditional ∧ b.data.category = .branch ∧
      q = x ++ [w, b] ++ target.toList ++ field.toList ∧
      (∀ s ∈ target, s ∈ paths.flatten ∧ s.data.isEntityOf kind key = true) ∧
      ∀ s ∈ field, s ∈ paths.flatten ∧ s.data.field?.isSome = true

/-- A list of paths with the dropped ones taken out and others added. -/
inductive Lays : List (Path Tag) → List (Path Tag) → Prop
  | nil : Lays [] []
  | keep {p : Path Tag} {ps out : List (Path Tag)} : ¬ IsDropped kind paths p → Lays ps out →
      Lays (p :: ps) (p :: out)
  | drop {p : Path Tag} {ps out : List (Path Tag)} : IsDropped kind paths p → Lays ps out →
      Lays (p :: ps) out
  | add {q : Path Tag} {ps out : List (Path Tag)} : IsAdded kind key paths q → Lays ps out →
      Lays ps (q :: out)

end

/-- The steps right below a conditional on a path, by number. -/
def branchesOn (w : Nat) : Path Tag → List Nat
  | s :: b :: rest =>
    (if s.data = .conditional ∧ s.origin = w then [b.origin] else []) ++ branchesOn w (b :: rest)
  | _ => []

def branchesIn (w : Nat) (paths : List (Path Tag)) : List Nat :=
  (paths.flatMap (branchesOn w)).eraseDups

/-- What completion makes of the paths of a component. -/
structure IsCompleted (kind : EntityKind) (key : String) (paths out : List (Path Tag)) : Prop where
  laid : Lays kind key paths paths out
  /-- Where a conditional stands in a slot, all its branches do. -/
  whole : ∀ w, ∀ q ∈ out, Passes w q →
    branchesIn w (out.filter (fun q' => slot? kind q' = slot? kind q)) = branchesIn w paths

variable {kind : EntityKind} {key : String} {paths : List (Path Tag)} {w n : Nat} {p q : Path Tag}

theorem Lays.addAll {added ps out : List (Path Tag)} (all : ∀ q ∈ added, IsAdded kind key paths q)
    (rest : Lays kind key paths ps out) : Lays kind key paths ps (added ++ out) := by
  induction added with
  | nil => exact rest
  | cons q added ih =>
    obtain ⟨own, all⟩ := List.forall_mem_cons.1 all
    exact .add own (ih all)

/-! ### Paths that float -/

theorem floating?_eq_some : floating? kind p = some w ↔ Floats kind w p := by
  rw [floating?, Option.ite_none_right_eq_some, Option.isNone_iff_eq_none]
  refine and_congr_right (fun _ => ?_)
  constructor
  · intro h
    rw [emptyBranch?] at h
    split at h
    · rename_i b s rest backward
      simp only [Bool.and_eq_true, decide_eq_true_eq, Option.ite_none_right_eq_some,
        Option.some.injEq] at h
      obtain ⟨⟨conditional, branch⟩, number⟩ := h
      exact ⟨rest.reverse, s, b, by simpa using congrArg List.reverse backward, conditional,
        branch, number⟩
    · simp at h
  · rintro ⟨x, s, b, rfl, conditional, branch, number⟩
    simp [emptyBranch?, conditional, branch, number]

theorem floating?_eq_none : floating? kind p = none ↔ ∀ v, ¬ Floats kind v p := by
  simp only [Option.eq_none_iff_forall_ne_some, ne_eq, floating?_eq_some]

theorem mem_anchored {slot : Slot} :
    (w, slot) ∈ anchored kind paths ↔
      ∃ p ∈ paths, (∀ v, ¬ Floats kind v p) ∧ slot? kind p = slot ∧ Passes w p := by
  simp only [anchored, List.mem_flatMap, ← floating?_eq_none]
  refine exists_congr (fun p => and_congr_right (fun _ => ?_))
  cases floating? kind p with
  | none => simp [mem_reaches, Passes, eq_comm (a := slot)]
  | some v => simp

theorem isKept_eq_true : isKept kind paths p = true ↔ ¬ IsDropped kind paths p := by
  have anchored_iff (w : Nat) : (anchored kind paths).any (fun r => r.1 == w) = true ↔
      ∃ q ∈ paths, Passes w q ∧ ∀ v, ¬ Floats kind v q := by
    rw [List.any_eq_true]
    constructor
    · rintro ⟨⟨v, slot⟩, hr, number⟩
      obtain rfl : v = w := by simpa using number
      obtain ⟨q, hq, still, -, passes⟩ := mem_anchored.1 hr
      exact ⟨q, hq, passes, still⟩
    · rintro ⟨q, hq, passes, still⟩
      exact ⟨_, mem_anchored.2 ⟨q, hq, still, rfl, passes⟩, by simp⟩
  rw [isKept, IsDropped]
  cases floats : floating? kind p with
  | none => simp [floating?_eq_none.1 floats]
  | some w =>
    simp only [Bool.not_eq_true', ← Bool.not_eq_true, anchored_iff, ← floating?_eq_some, floats,
      Option.some.injEq, exists_eq_left']

theorem isKept_of_not_floats (h : ∀ v, ¬ Floats kind v p) : isKept kind paths p = true :=
  isKept_eq_true.2 (fun ⟨v, floats, _⟩ => h v floats)

/-! ### Slots that a conditional reaches, and branches that stand in them -/

theorem mem_reach_iff {slot : Slot} :
    (w, slot) ∈ reach kind paths ↔
      ∃ p ∈ paths, isKept kind paths p = true ∧ slot? kind p = slot ∧ Passes w p := by
  rw [mem_reach, mem_anchored]
  constructor
  · rintro (⟨p, hp, still, own, passes⟩ | ⟨p, hp, floats, stays, reached⟩)
    · exact ⟨p, hp, isKept_of_not_floats still, own, passes⟩
    · obtain ⟨own, passes⟩ := mem_reaches.1 reached
      exact ⟨p, hp, stays, (slot?_of_floating? floats).trans own.symm, passes⟩
  · rintro ⟨p, hp, stays, own, passes⟩
    cases floats : floating? kind p with
    | none => exact .inl ⟨p, hp, floating?_eq_none.1 floats, own, passes⟩
    | some v =>
      have floats : (floating? kind p).isSome = true := by simp [floats]
      refine .inr ⟨p, hp, floats, stays, mem_reaches.2 ⟨?_, passes⟩⟩
      rw [← own, slot?_of_floating? floats]

theorem mem_present {b : Nat} {slot : Slot} :
    (b, slot) ∈ present kind paths ↔
      ∃ p ∈ paths, isKept kind paths p = true ∧ slot? kind p = slot ∧
        ∃ s ∈ sites p, s.branch = b := by
  simp only [present, List.mem_flatMap, List.mem_filter, List.mem_map, Prod.mk.injEq]
  constructor
  · rintro ⟨p, ⟨hp, stays⟩, s, hs, branch, own⟩
    exact ⟨p, hp, stays, own, s, hs, branch⟩
  · rintro ⟨p, hp, stays, own, s, hs, branch⟩
    exact ⟨p, ⟨hp, stays⟩, s, hs, branch, own⟩

theorem mem_lacking {s : Site} {r : Nat × Slot} :
    r ∈ lacking kind paths s ↔ r.1 = s.wrapper ∧ (s.wrapper, r.2) ∈ reach kind paths ∧
      (s.branch, r.2) ∉ present kind paths := by
  obtain ⟨v, slot⟩ := r
  simp only [lacking, List.mem_filter, beq_iff_eq, Bool.not_eq_true', ← Bool.not_eq_true,
    List.contains_iff_mem]
  constructor
  · rintro ⟨⟨reached, rfl⟩, absent⟩
    exact ⟨rfl, reached, absent⟩
  · rintro ⟨rfl, reached, absent⟩
    exact ⟨⟨reached, rfl⟩, absent⟩

theorem mem_laid_iff {seen : List Nat} {ps : List (Path Tag)} :
    q ∈ laid kind key paths seen ps ↔ q ∈ ps ∧ isKept kind paths q = true ∨
      ∃ s ∈ firsts Site.branch seen (ps.flatMap sites), q ∈ standIns kind key paths s := by
  induction ps generalizing seen with
  | nil => simp [laid, firsts]
  | cons p ps ih =>
    have own : q ∈ (if isKept kind paths p then [p] else []) ↔
        q = p ∧ isKept kind paths q = true := by
      split
      · rename_i stays
        simp only [List.mem_singleton]
        exact ⟨fun h => ⟨h, h ▸ stays⟩, And.left⟩
      · rename_i goes
        simp only [List.not_mem_nil, false_iff, not_and]
        exact fun h => h ▸ goes
    rw [laid, List.mem_append, List.mem_append, own, ih, List.flatMap_cons, firsts_append]
    simp only [List.mem_flatMap, List.mem_append, List.mem_cons, or_and_right, exists_or]
    exact or_or_or_comm

/-! ### Branches on paths -/

theorem mem_sites {s : Site} :
    s ∈ sites p ↔ ∃ x w b y, p = x ++ w :: b :: y ∧ w.data = .conditional ∧
      s = ⟨w.origin, b.origin, x ++ [w, b]⟩ := by
  constructor
  · intro hs
    obtain ⟨x, w, b, y, split, conditional, wrapper, branch, path⟩ := exists_of_mem_sitesFrom hs
    refine ⟨x, w, b, y, split, conditional, ?_⟩
    obtain ⟨v, c, q⟩ := s
    simp_all
  · rintro ⟨x, w, b, y, rfl, conditional, rfl⟩
    have site : ⟨w.origin, b.origin, [] ++ x ++ [w, b]⟩ ∈ sitesFrom [] (x ++ w :: b :: y) :=
      mem_sitesFrom conditional
    rwa [List.nil_append] at site

theorem mem_branchesOn :
    n ∈ branchesOn w p ↔ ∃ x s b y, p = x ++ s :: b :: y ∧ s.data = .conditional ∧
      s.origin = w ∧ b.origin = n := by
  fun_induction branchesOn w p with
  | case1 s b rest ih =>
    rw [List.mem_append, ih]
    constructor
    · rintro (here | ⟨x, s', b', y, split, later⟩)
      · split at here
        · rename_i own
          exact ⟨[], s, b, rest, rfl, own.1, own.2, (List.mem_singleton.1 here).symm⟩
        · simp at here
      · exact ⟨s :: x, s', b', y, by rw [split]; rfl, later⟩
    · rintro ⟨x, s', b', y, split, conditional, own, number⟩
      cases x with
      | nil =>
        obtain ⟨rfl, rest⟩ := List.cons.inj split
        obtain ⟨rfl, rfl⟩ := List.cons.inj rest
        exact .inl (by simp [conditional, own, number])
      | cons z x =>
        exact .inr ⟨x, s', b', y, (List.cons.inj split).2, conditional, own, number⟩
  | case2 p short =>
    simp only [List.not_mem_nil, false_iff]
    rintro ⟨x, s, b, y, rfl, -⟩
    cases x with
    | nil => exact short s b y rfl
    | cons z x => cases x with
      | nil => exact short z s (b :: y) rfl
      | cons z' x => exact short z z' (x ++ s :: b :: y) rfl

theorem branchesOn_append {b : Step Tag} {r : Path Tag} (hb : b.data ≠ .conditional)
    (hr : ∀ s ∈ r, s.data ≠ .conditional) (p : Path Tag) :
    branchesOn w (p ++ b :: r) = branchesOn w (p ++ [b]) := by
  have none : ∀ {b : Step Tag} {r : Path Tag}, b.data ≠ .conditional →
      (∀ s ∈ r, s.data ≠ .conditional) → branchesOn w (b :: r) = [] := by
    intro b r
    induction r generalizing b with
    | nil => intro _ _; rfl
    | cons c r ih =>
      intro hb hr
      obtain ⟨own, later⟩ := List.forall_mem_cons.1 hr
      rw [branchesOn, ih own later, if_neg (fun h => hb h.1), List.nil_append]
  induction p with
  | nil => rw [List.nil_append, List.nil_append, none hb hr, none hb (by simp)]
  | cons s p ih =>
    cases p with
    | nil =>
      rw [List.nil_append, List.nil_append] at ih
      simp only [List.cons_append, List.nil_append, branchesOn, ih]
    | cons c p =>
      simp only [List.cons_append, branchesOn] at ih ⊢
      rw [ih]

/-- The branches of a conditional do not fall from the one path to the other. -/
def Climbs (w : Nat) (p q : Path Tag) : Prop :=
  ∀ n ∈ branchesOn w p, ∀ m ∈ branchesOn w q, n ≤ m

theorem pairwise_branchesIn {out : List (Path Tag)} (climbs : out.Pairwise (Climbs w))
    (each : ∀ q ∈ out, Climbs w q q) : (branchesIn w out).Pairwise (· < ·) := by
  refine pairwise_lt_eraseDups (List.pairwise_flatMap.2 ⟨fun q hq => ?_, climbs⟩)
  exact List.pairwise_of_forall_mem_list (each q hq)

/-! ### What stands in for a branch -/

theorem targetStep_spec {t : Step Tag} (h : t ∈ targetStep kind key paths) :
    t ∈ paths.flatten ∧ t.data.isEntityOf kind key = true := by
  have target := List.find?_some h
  exact ⟨List.mem_of_find?_eq_some h, target⟩

theorem slot?_append (hq : ∀ s ∈ q, s.data.field? = none) :
    slot? kind (p ++ q) = slot? kind p := by
  have none : slot? kind q = none :=
    List.findSome?_eq_none_iff.2 (fun s hs => by simp [hq s hs])
  rw [slot?, List.findSome?_append]
  exact (congrArg _ none).trans Option.or_none

theorem mem_of_mem_fieldStep {g : FieldKind} {x : Step Tag} (h : x ∈ fieldStep kind paths g) :
    x ∈ paths.flatten ∧ x.data.field? = some g := by
  obtain ⟨p, found, step⟩ := Option.bind_eq_some_iff.1 h
  exact ⟨List.mem_flatten.2 ⟨p, List.mem_of_find?_eq_some found, List.mem_of_find?_eq_some step⟩,
    by simpa using List.find?_some step⟩

theorem exists_of_placeholder (kind : EntityKind) (key : String)
    (target field : Option (Step Tag)) (p : Path Tag) :
    ∃ t f : Option (Step Tag), placeholder kind key target field p = p ++ t.toList ++ f.toList ∧
      (∀ s ∈ t, s ∈ target) ∧ ∀ s ∈ f, s ∈ field := by
  have last (q : Path Tag) : ∃ f : Option (Step Tag),
      (if q.any (fun s => s.data.field?.isSome) then q else q ++ field.toList) = q ++ f.toList ∧
        ∀ s ∈ f, s ∈ field := by
    split
    · exact ⟨none, by simp, by simp⟩
    · exact ⟨field, rfl, fun _ hs => hs⟩
  unfold placeholder
  split
  · obtain ⟨f, hf, own⟩ := last p
    exact ⟨none, f, by simpa using hf, by simp, own⟩
  · obtain ⟨f, hf, own⟩ := last (p ++ target.toList)
    exact ⟨target, f, hf, fun _ hs => hs, own⟩

/-- A stand-in for a branch is the way down to the branch, and then the entity, a field or both,
which stand on the paths. -/
theorem exists_of_mem_standIns {o : Path Tag} {s : Site} (hs : s ∈ sites o)
    (hq : q ∈ standIns kind key paths s) :
    ∃ (x y : Path Tag) (w b : Step Tag) (target field : Option (Step Tag)),
      o = x ++ w :: b :: y ∧ w.data = .conditional ∧ s = ⟨w.origin, b.origin, x ++ [w, b]⟩ ∧
        q = x ++ [w, b] ++ target.toList ++ field.toList ∧
        (∀ t ∈ target, t ∈ paths.flatten ∧ t.data.isEntityOf kind key = true) ∧
        ∀ f ∈ field, f ∈ paths.flatten ∧ f.data.field?.isSome = true := by
  obtain ⟨x, w, b, y, rfl, conditional, rfl⟩ := mem_sites.1 hs
  obtain ⟨r, -, rfl⟩ := List.mem_map.1 hq
  obtain ⟨t, f, whole, ofTarget, ofField⟩ := exists_of_placeholder kind key
    (targetStep kind key paths) (r.2.bind (fieldStep kind paths)) (x ++ [w, b])
  refine ⟨x, y, w, b, t, f, rfl, conditional, rfl, whole, ?_, ?_⟩
  · exact fun s hs => targetStep_spec (ofTarget s hs)
  · intro s hs
    obtain ⟨g, -, step⟩ := Option.bind_eq_some_iff.1 (ofField s hs)
    obtain ⟨hmem, field⟩ := mem_of_mem_fieldStep step
    exact ⟨hmem, by simp [field]⟩

theorem slot?_placeholder_none {x : Path Tag} {w b : Step Tag} (conditional : w.data = .conditional)
    (branch : b.data.category = .branch) :
    slot? kind (placeholder kind key (targetStep kind key paths) none (x ++ [w, b])) =
      slot? kind x := by
  obtain ⟨t, f, whole, target, last⟩ := exists_of_placeholder kind key
    (targetStep kind key paths) none (x ++ [w, b])
  obtain rfl : f = none := Option.eq_none_iff_forall_not_mem.2 (fun c hc => by
    simpa using last c hc)
  rw [whole, Option.toList_none, List.append_nil, List.append_assoc]
  refine slot?_append (fun c hc => ?_)
  simp only [List.mem_append, List.mem_cons, List.not_mem_nil, or_false] at hc
  rcases hc with (rfl | rfl) | hc
  · rw [conditional]
    rfl
  · exact (Tag.plain_of_branch branch).1
  · have target := (targetStep_spec (target c (Option.mem_toList.1 hc))).2
    obtain ⟨e, entity, -, -⟩ :=
      Address.exists_entity_of_isTarget (a := ⟨kind, key, .name⟩) target
    rw [entity]
    rfl

section Owned

variable (h : AreOwned paths) {o : Path Tag} {s : Site} (ho : o ∈ paths) (hs : s ∈ sites o)

include h

theorem slot?_of_field {x y : Path Tag} {f : Step Tag} (hp : x ++ y ∈ paths) (hf : f ∈ x)
    (field : f.data.field?.isSome = true) : slot? kind (x ++ y) = slot? kind x := by
  obtain ⟨u, v, rfl⟩ := List.append_of_mem hf
  rw [List.append_assoc] at hp
  exact slot?_append (fun c hc => h.alone hp field c (List.mem_append_right _ hc))

include ho hs

theorem isAdded_of_mem_standIns (hq : q ∈ standIns kind key paths s) :
    IsAdded kind key paths q := by
  obtain ⟨x, y, w, b, t, f, rfl, conditional, rfl, rest⟩ := exists_of_mem_standIns hs hq
  exact ⟨x, y, w, b, t, f, ho, conditional, h.branch ho conditional, rest⟩

theorem branchesOn_standIn (hq : q ∈ standIns kind key paths s) :
    branchesOn w q = branchesOn w s.path ∧ (Passes w q → Passes w s.path) := by
  obtain ⟨x, y, v, b, t, f, rfl, conditional, rfl, rfl, target, field⟩ :=
    exists_of_mem_standIns hs hq
  have branch := (Tag.plain_of_branch (h.branch ho conditional)).2.2
  have plain : ∀ c ∈ t.toList ++ f.toList, c.data ≠ .conditional := by
    intro c hc conditional
    rcases List.mem_append.1 hc with hc | hc
    · have := (target c (Option.mem_toList.1 hc)).2
      simp [conditional, Tag.isEntityOf] at this
    · have := (field c (Option.mem_toList.1 hc)).2
      simp [conditional, Tag.field?] at this
  constructor
  · have more := branchesOn_append (w := w) branch plain (x ++ [v])
    simpa using more
  · rintro ⟨c, hc, own, number⟩
    refine ⟨c, ?_, own, number⟩
    rw [List.append_assoc] at hc
    rcases List.mem_append.1 hc with hc | hc
    · exact hc
    · exact absurd own (plain c hc)

theorem slot?_placeholder {r : Nat × Slot} (hr : r ∈ lacking kind paths s) :
    slot? kind (placeholder kind key (targetStep kind key paths) (r.2.bind (fieldStep kind paths))
      s.path) = r.2 := by
  obtain ⟨-, reached, absent⟩ := mem_lacking.1 hr
  obtain ⟨p, hp, stays, own, w', hw', conditional', number⟩ := mem_reach_iff.1 reached
  obtain ⟨x, w, b, y, rfl, conditional, rfl⟩ := mem_sites.1 hs
  obtain ⟨x', y', rfl⟩ := List.append_of_mem hw'
  obtain ⟨rfl, rfl⟩ := h.agree hp ho conditional' conditional number
  have branch := h.branch ho conditional
  by_cases field : ∃ f ∈ x', f.data.field?.isSome = true
  · -- the field stands above the conditional, so no other slot is reached
    obtain ⟨f, hf, field⟩ := field
    have above : slot? kind x' = r.2 := (slot?_of_field h hp hf field).symm.trans own
    cases slot : r.2 with
    | none => exact (slot?_placeholder_none conditional branch).trans (above.trans slot)
    | some g =>
      have here := (slot?_of_field h ho hf field).trans above
      exact absurd (mem_present.2 ⟨_, ho, isKept_of_slot? (here.trans slot), here, _, hs, rfl⟩) absent
  · have none : ∀ c ∈ x' ++ [w', b], c.data.field? = none := by
      intro c hc
      simp only [List.mem_append, List.mem_cons, List.not_mem_nil, or_false] at hc
      rcases hc with hc | rfl | rfl
      · by_contra some
        exact field ⟨c, hc, by simpa [Option.isSome_iff_ne_none] using some⟩
      · rw [conditional]
        rfl
      · exact (Tag.plain_of_branch branch).1
    exact (Address.placeholder_spec (a := ⟨kind, key, .name⟩) paths r.2 none
      (fun g hg => ⟨_, hp, own.trans hg⟩)).1

omit ho hs

/-! ### Paths laid out -/

theorem lays_laid (seen : List Nat) {ps : List (Path Tag)} (sub : ∀ p ∈ ps, p ∈ paths) :
    Lays kind key paths ps (laid kind key paths seen ps) := by
  induction ps generalizing seen with
  | nil => exact .nil
  | cons p ps ih =>
    obtain ⟨hp, others⟩ := List.forall_mem_cons.1 sub
    have added : ∀ q ∈ (firsts Site.branch seen (sites p)).flatMap (standIns kind key paths),
        IsAdded kind key paths q := by
      intro q hq
      obtain ⟨s, hs, hq⟩ := List.mem_flatMap.1 hq
      exact isAdded_of_mem_standIns h hp (mem_of_mem_firsts hs).1 hq
    have rest := Lays.addAll added (ih (((sites p).map Site.branch).reverse ++ seen) others)
    rw [laid, List.append_assoc]
    split
    · rename_i stays
      exact .keep (isKept_eq_true.1 stays) rest
    · rename_i goes
      refine .drop ?_ rest
      by_contra still
      exact goes (isKept_eq_true.2 still)

theorem eq_of_mem_branchesOn (ho : o ∈ paths) {m : Nat} (hn : n ∈ branchesOn w o)
    (hm : m ∈ branchesOn w o) : n = m := by
  obtain ⟨x, v, b, y, rfl, conditional, rfl, rfl⟩ := mem_branchesOn.1 hn
  obtain ⟨x', v', b', y', split, conditional', number, rfl⟩ := mem_branchesOn.1 hm
  obtain ⟨rfl, rfl⟩ := h.agree ho (split ▸ ho) conditional conditional' number.symm
  have tails := List.append_cancel_left split
  rw [(List.cons.inj (List.cons.inj tails).2).1]

theorem pairwise_climbs (w : Nat) : paths.Pairwise (Climbs w) := by
  refine h.rising.imp_of_mem ?_
  intro p q hp hq rises n hn m hm
  obtain ⟨x, v, b, y, rfl, conditional, rfl, rfl⟩ := mem_branchesOn.1 hn
  obtain ⟨x', v', b', y', rfl, conditional', number, rfl⟩ := mem_branchesOn.1 hm
  obtain ⟨rfl, rfl⟩ := h.agree hp hq conditional conditional' number.symm
  exact rises x y y' v b b' rfl rfl conditional

theorem exists_of_mem_laid (w : Nat) {seen : List Nat} {ps : List (Path Tag)}
    (sub : ∀ p ∈ ps, p ∈ paths) (hq : q ∈ laid kind key paths seen ps) :
    ∃ o ∈ ps, ∀ n ∈ branchesOn w q, n ∈ branchesOn w o := by
  rcases mem_laid_iff.1 hq with ⟨hq, -⟩ | ⟨s, hs, hq⟩
  · exact ⟨q, hq, fun _ hn => hn⟩
  · obtain ⟨o, ho, hs⟩ := List.mem_flatMap.1 (mem_of_mem_firsts hs).1
    refine ⟨o, ho, fun n hn => ?_⟩
    rw [(branchesOn_standIn h (sub o ho) hs hq).1] at hn
    obtain ⟨x, v, b, y, rfl, -, rfl⟩ := mem_sites.1 hs
    obtain ⟨x', v', b', y', split, found⟩ := mem_branchesOn.1 hn
    refine mem_branchesOn.2 ⟨x', v', b', y' ++ y, ?_, found⟩
    have longer := congrArg (· ++ y) split
    simpa using longer

theorem pairwise_climbs_laid (w : Nat) {seen : List Nat} {ps : List (Path Tag)}
    (sub : ∀ p ∈ ps, p ∈ paths) (climbs : ps.Pairwise (Climbs w)) :
    (laid kind key paths seen ps).Pairwise (Climbs w) := by
  induction ps generalizing seen with
  | nil => exact List.Pairwise.nil
  | cons p ps ih =>
    obtain ⟨hp, others⟩ := List.forall_mem_cons.1 sub
    obtain ⟨first, later⟩ := List.pairwise_cons.1 climbs
    have split : laid kind key paths seen (p :: ps) = laid kind key paths seen [p] ++
        laid kind key paths (((sites p).map Site.branch).reverse ++ seen) ps := by simp [laid]
    have own : ∀ q ∈ laid kind key paths seen [p], ∀ n ∈ branchesOn w q, n ∈ branchesOn w p := by
      intro q hq
      obtain ⟨o, ho, shown⟩ := exists_of_mem_laid h w (by simpa using hp) hq
      rwa [List.mem_singleton.1 ho] at shown
    rw [split, List.pairwise_append]
    refine ⟨List.pairwise_of_forall_mem_list ?_, ih others later, ?_⟩
    · intro q hq q' hq' n hn m hm
      exact Nat.le_of_eq (eq_of_mem_branchesOn h hp (own q hq n hn) (own q' hq' m hm))
    · intro q hq q' hq' n hn m hm
      obtain ⟨o, ho, shown⟩ := exists_of_mem_laid h w others hq'
      exact first o ho n (own q hq n hn) m (shown m hm)

/-! ### All branches of every copy -/

theorem mem_reach_of_mem_laid (hq : q ∈ laid kind key paths [] paths) (passes : Passes w q) :
    (w, slot? kind q) ∈ reach kind paths := by
  rcases mem_laid_iff.1 hq with ⟨hq, stays⟩ | ⟨s, hs, hq⟩
  · exact mem_reach_iff.2 ⟨q, hq, stays, rfl, passes⟩
  · obtain ⟨o, ho, hs⟩ := List.mem_flatMap.1 (mem_of_mem_firsts hs).1
    have above := (branchesOn_standIn h ho hs hq).2 passes
    obtain ⟨r, hr, rfl⟩ := List.mem_map.1 hq
    rw [slot?_placeholder h ho hs hr]
    -- whoever reaches the slot through the branch passes what stands above it
    obtain ⟨-, reached, -⟩ := mem_lacking.1 hr
    obtain ⟨p, hp, stays, own, v', hv', conditional', number⟩ := mem_reach_iff.1 reached
    obtain ⟨x, v, b, y, rfl, conditional, rfl⟩ := mem_sites.1 hs
    obtain ⟨x', y', rfl⟩ := List.append_of_mem hv'
    obtain ⟨rfl, rfl⟩ := h.agree hp ho conditional' conditional number
    obtain ⟨c, hc, same⟩ := above
    refine mem_reach_iff.2 ⟨_, hp, stays, own, c, ?_, same⟩
    simp only [List.mem_append, List.mem_cons, List.not_mem_nil, or_false] at hc ⊢
    rcases hc with hc | hc | rfl
    · exact .inl hc
    · exact .inr (.inl hc)
    · exact absurd same.1 (Tag.plain_of_branch (h.branch ho conditional)).2.2

theorem exists_of_mem_reach_slot {slot : Slot} (reached : (w, slot) ∈ reach kind paths)
    (ho : o ∈ paths) (hn : n ∈ branchesOn w o) :
    ∃ q ∈ laid kind key paths [] paths, slot? kind q = slot ∧ n ∈ branchesOn w q := by
  obtain ⟨x, v, b, y, rfl, conditional, rfl, rfl⟩ := mem_branchesOn.1 hn
  have site : ⟨v.origin, b.origin, x ++ [v, b]⟩ ∈ sites (x ++ v :: b :: y) :=
    mem_sites.2 ⟨x, v, b, y, rfl, conditional, rfl⟩
  -- any path that shows the branch shows it below the conditional
  have below {p : Path Tag} (hp : p ∈ paths) {s : Site} (hs : s ∈ sites p)
      (same : s.branch = b.origin) :
      s = ⟨v.origin, b.origin, x ++ [v, b]⟩ ∧ b.origin ∈ branchesOn v.origin p := by
    obtain ⟨x', v', b', y', rfl, conditional', rfl⟩ := mem_sites.1 hs
    obtain ⟨rfl, rfl, rfl⟩ := h.same hp ho conditional' conditional same
    exact ⟨rfl, mem_branchesOn.2 ⟨x', v', b', y', rfl, conditional', rfl, rfl⟩⟩
  by_cases stands : (b.origin, slot) ∈ present kind paths
  · obtain ⟨p, hp, stays, own, s, hs, same⟩ := mem_present.1 stands
    exact ⟨p, mem_laid_iff.2 (.inl ⟨hp, stays⟩), own, (below hp hs same).2⟩
  · obtain ⟨s, hs, same⟩ : ∃ s ∈ firsts Site.branch [] (paths.flatMap sites),
        s.branch = b.origin :=
      exists_mem_firsts (List.mem_flatMap.2 ⟨_, ho, site⟩) (by simp)
    obtain ⟨p, hp, hs'⟩ := List.mem_flatMap.1 (mem_of_mem_firsts hs).1
    obtain ⟨rfl, -⟩ := below hp hs' same
    have lacks : (v.origin, slot) ∈ lacking kind paths ⟨v.origin, b.origin, x ++ [v, b]⟩ :=
      mem_lacking.2 ⟨rfl, reached, stands⟩
    have standIn := List.mem_map_of_mem (f := fun r => placeholder kind key
      (targetStep kind key paths) (r.2.bind (fieldStep kind paths)) (x ++ [v, b])) lacks
    refine ⟨_, mem_laid_iff.2 (.inr ⟨_, hs, standIn⟩), slot?_placeholder h hp hs' lacks, ?_⟩
    rw [(branchesOn_standIn h hp hs' standIn).1]
    exact mem_branchesOn.2 ⟨x, v, b, [], rfl, conditional, rfl, rfl⟩

theorem isCompleted_of_areOwned (kind : EntityKind) (key : String) :
    IsCompleted kind key paths (complete kind key paths) := by
  have all : ∀ p ∈ paths, p ∈ paths := fun _ hp => hp
  rw [complete_eq_laid]
  refine ⟨lays_laid h [] all, fun w q hq passes => ?_⟩
  have reached := mem_reach_of_mem_laid h hq passes
  have climbs := pairwise_climbs h w
  have climbsLaid : (laid kind key paths [] paths).Pairwise (Climbs w) :=
    pairwise_climbs_laid h w all climbs
  have each : ∀ p ∈ paths, Climbs w p p :=
    fun p hp n hn m hm => Nat.le_of_eq (eq_of_mem_branchesOn h hp hn hm)
  have eachLaid : ∀ q ∈ laid kind key paths [] paths, Climbs w q q := by
    intro q hq n hn m hm
    obtain ⟨o, ho, shown⟩ := exists_of_mem_laid h w all hq
    exact each o ho n (shown n hn) m (shown m hm)
  apply (pairwise_branchesIn (climbsLaid.filter _)
    (fun q hq => eachLaid q (List.mem_filter.1 hq).1)).eq_of_mem_iff
      (pairwise_branchesIn climbs each)
  intro n
  simp only [branchesIn, List.mem_eraseDups, List.mem_flatMap, List.mem_filter, decide_eq_true_eq]
  constructor
  · rintro ⟨q', ⟨hq', -⟩, hn⟩
    obtain ⟨o, ho, shown⟩ := exists_of_mem_laid h w all hq'
    exact ⟨o, ho, shown n hn⟩
  · rintro ⟨o, ho, hn⟩
    obtain ⟨q', hq', own, shown⟩ := exists_of_mem_reach_slot h reached ho hn
    exact ⟨q', ⟨hq', own⟩, shown⟩

end Owned

end SplitChain

open SplitChain Standardize

/-- Completing what a component sees of accepted documents keeps its paths and makes every copy of
a conditional whole. -/
theorem isCompleted_complete {inputs : List (Forest Tag)} {paths : List (Path Tag)}
    (accepted : validateAll inputs = .ok ())
    (flat : Forest.worldPaths (combined inputs) = .ok paths) (kind : EntityKind) (key : String) :
    let seen := (paths.filter (fun p => (declarationPath? p).isNone)).filterMap
      (ownedPath? kind key)
    IsCompleted kind key seen (complete kind key seen) := by
  obtain ⟨-, rfl⟩ := Forest.worldPaths_eq flat
  have content : (Forest.paths (combined inputs)).filter (fun p => (declarationPath? p).isNone) =
      Address.contentPaths (combined inputs) :=
    List.filter_congr (fun p _ => declarationPath?_isNone p)
  rw [content]
  let a : Address := ⟨kind, key, .name⟩
  have owned : AreOwned (a.view (Address.contentPaths (combined inputs))) :=
    Address.areOwned_view (Address.areAccepted_contentPaths (accepted_of_validateAll accepted))
  exact isCompleted_of_areOwned owned kind key

/-- A hall that has a name by night, nothing at a feast, and else a description. -/
def hallByChoice : List (Forest Tag) :=
  [[.branch (.asset "house")
    [.branch (.room "hall")
      [.branch .conditional
        [.branch (.onCondition "night") [.branch (.field .name) [.leaf (.text "Dark hall")]],
          .leaf (.onCondition "feast"),
          .branch .fallthrough [.branch (.field .description) [.leaf (.text "A hall.")]]]]]]]

/-- The branch of the feast goes, and four branches come in: two for each field. -/
theorem isCompleted_complete_hallByChoice :
    ∃ paths, validateAll hallByChoice = .ok () ∧
      Forest.worldPaths (combined hallByChoice) = .ok paths ∧
      (paths.length = 3 ∧ (complete (.plain .room) "hall" (paths.filterMap
        (ownedPath? (.plain .room) "hall"))).length = 6) ∧
      IsCompleted (.plain .room) "hall"
        ((paths.filter (fun p => (declarationPath? p).isNone)).filterMap
          (ownedPath? (.plain .room) "hall"))
        (complete (.plain .room) "hall"
          ((paths.filter (fun p => (declarationPath? p).isNone)).filterMap
            (ownedPath? (.plain .room) "hall"))) := by
  have accepted : validateAll hallByChoice = .ok () := by cbv
  have flat : Forest.worldPaths (combined hallByChoice) =
      .ok (Forest.paths (combined hallByChoice)) := by cbv
  exact ⟨_, accepted, flat, ⟨by cbv, by cbv⟩, isCompleted_complete accepted flat _ _⟩

end WorldMarkup
