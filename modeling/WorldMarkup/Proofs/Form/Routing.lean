import WorldMarkup.Proofs.Form.Ordering
import WorldMarkup.Proofs.Form.Tails
import WorldMarkup.Proofs.Tree.Growth

/-!
What becomes of the ordered paths of a component. Main statements: they grow into one tree of the
component, and its field grows from what the paths of its slot hold there.
-/

set_option autoImplicit false
set_option relaxedAutoImplicit false

namespace WorldMarkup.Growth

def fieldPart (f : FieldKind) (g : Growth Tag) : Growth Tag :=
  (List.filter (fun n => decide (n.data.1.field? = some f)) g).flatMap Node.children

/-- What a path holds below a first step that is the field. -/
def fieldRest? (f : FieldKind) : Path Tag → Option (Path Tag)
  | [] => none
  | s :: rest => if s.data.field? = some f then some rest else none

/-- Each number goes with one field at most. -/
def Determines (known : Nat → Option FieldKind → Prop) : Prop :=
  ∀ o x y, known o x → known o y → x = y

/-- Siblings whose order is free, one for each field; `known` relates numbers to fields. -/
structure IsLevel (known : Nat → Option FieldKind → Prop) (g : Growth Tag) : Prop where
  known : ∀ n ∈ g, known n.data.2 n.data.1.field?
  free : ∀ n ∈ g, n.data.1.category ∈ [Category.field, .conditional, .listItem, .entity]
  single : ∀ f : FieldKind,
    (List.filter (fun n : Node (Tag × Nat) => decide (n.data.1.field? = some f)) g).length ≤ 1

section Level

variable {order : List Category} {known : Nat → Option FieldKind → Prop} {g : Growth Tag}

theorem joins_of_match?_eq_none {s : Step Tag} {backward : List (Step Tag)}
    (h : match? (regrowth order) s backward = none)
    (hs : s.data.category ∈ [Category.field, .conditional, .listItem, .entity])
    (hall : ∀ y ∈ backward,
      y.data.category ∈ [Category.field, .conditional, .listItem, .entity]) :
    ∀ y ∈ backward, joins (regrowth order) s y = false := by
  induction backward with
  | nil => simp
  | cons x rest ih =>
    rw [match?_cons] at h
    have hfree : (regrowth order).independent ((regrowth order).category x.data)
        ((regrowth order).category s.data) = true := by
      have hx := hall x (by simp)
      have hrules : (regrowth order).independent (x.data.category) (s.data.category) =
          (Category.unordered.contains x.data.category &&
            Category.unordered.contains s.data.category) := by
        simp [Rules.independent, regrowth, worldRules]
      have hin (c : Category) (hc : c ∈ [Category.field, .conditional, .listItem, .entity]) :
          Category.unordered.contains c = true := by
        simp only [List.mem_cons, List.not_mem_nil, or_false] at hc
        rcases hc with rfl | rfl | rfl | rfl <;> decide
      have := hrules
      rw [hin _ hx, hin _ hs] at this
      exact this
    cases hj : joins (regrowth order) s x with
    | true => simp [hj] at h
    | false =>
      have hp : passes (regrowth order) s x = true := by simp [passes, hj, hfree]
      simp only [hj, Bool.false_eq_true, if_false, hp, if_true, Option.map_eq_none_iff] at h
      intro y hy
      rcases List.mem_cons.1 hy with rfl | hy
      · exact hj
      · exact ih h (fun z hz => hall z (by simp [hz])) y hy

theorem fieldPart_append (f : FieldKind) (g h : Growth Tag) :
    fieldPart f (g ++ h) = fieldPart f g ++ fieldPart f h := by
  rw [fieldPart, List.filter_append, List.flatMap_append]
  rfl

theorem fieldPart_cons (f : FieldKind) (n : Node (Tag × Nat)) (g : Growth Tag) :
    fieldPart f (n :: g) = (if n.data.1.field? = some f then n.children else []) ++
      fieldPart f g := by
  by_cases own : n.data.1.field? = some f <;> simp [fieldPart, own]

theorem fieldPart_eq_nil {f : FieldKind} (h : ∀ n ∈ g, n.data.1.field? ≠ some f) :
    fieldPart f g = [] := by
  have none : List.filter (fun n => decide (n.data.1.field? = some f)) g = [] :=
    List.filter_eq_nil_iff.2 fun n hn => by simpa using h n hn
  rw [fieldPart, none]
  rfl

section Middle

variable {before after : Growth Tag} {n m : Node (Tag × Nat)} {f : FieldKind}

theorem IsLevel.alone (h : IsLevel known (before ++ n :: after))
    (own : n.data.1.field? = some f) :
    ∀ x ∈ before ++ after, x.data.1.field? ≠ some f := by
  have single := h.single f
  rw [List.filter_append, List.filter_cons_of_pos (by simpa using own), List.length_append,
    List.length_cons] at single
  intro x hx other
  have counted : ∀ {l : Growth Tag}, x ∈ l →
      0 < (List.filter (fun n : Node (Tag × Nat) => decide (n.data.1.field? = some f)) l).length :=
    fun hl => List.length_pos_of_mem (List.mem_filter.2 ⟨hl, by simpa using other⟩)
  rcases List.mem_append.1 hx with hx | hx
  · have := counted hx
    omega
  · have := counted hx
    omega

theorem IsLevel.replace (h : IsLevel known (before ++ n :: after))
    (number : known m.data.2 m.data.1.field?)
    (free : m.data.1.category ∈ [Category.field, .conditional, .listItem, .entity])
    (same : m.data.1.field? = n.data.1.field?) : IsLevel known (before ++ m :: after) := by
  have numbers := h.known
  have frees := h.free
  rw [List.forall_mem_append, List.forall_mem_cons] at numbers frees
  constructor
  · rw [List.forall_mem_append, List.forall_mem_cons]
    exact ⟨numbers.1, number, numbers.2.2⟩
  · rw [List.forall_mem_append, List.forall_mem_cons]
    exact ⟨frees.1, free, frees.2.2⟩
  · intro f
    have single := h.single f
    rw [List.filter_append, List.filter_cons] at single ⊢
    rw [same]
    by_cases own : n.data.1.field? = some f <;> simpa [own] using single

theorem IsLevel.add (h : IsLevel known (before ++ after))
    (number : known m.data.2 m.data.1.field?)
    (free : m.data.1.category ∈ [Category.field, .conditional, .listItem, .entity])
    (alone : ∀ f, m.data.1.field? = some f → ∀ x ∈ before ++ after, x.data.1.field? ≠ some f) :
    IsLevel known (before ++ m :: after) := by
  have numbers := h.known
  have frees := h.free
  rw [List.forall_mem_append] at numbers frees
  constructor
  · rw [List.forall_mem_append, List.forall_mem_cons]
    exact ⟨numbers.1, number, numbers.2⟩
  · rw [List.forall_mem_append, List.forall_mem_cons]
    exact ⟨frees.1, free, frees.2⟩
  · intro f
    rw [List.filter_append, List.filter_cons]
    by_cases own : m.data.1.field? = some f
    · have none : List.filter (fun n : Node (Tag × Nat) => decide (n.data.1.field? = some f))
          (before ++ after) = [] :=
        List.filter_eq_nil_iff.2 fun x hx => by simpa using alone f own x hx
      rw [List.filter_append, List.append_eq_nil_iff] at none
      simp [own, none.1, none.2]
    · have single := h.single f
      rw [List.filter_append] at single
      simpa [own] using single

end Middle

theorem IsLevel.alone_of_isNew (h : IsLevel known g) {s : Step Tag}
    (new : IsNew (regrowth order) s (g.reverse.map step))
    (free : s.data.category ∈ [Category.field, .conditional, .listItem, .entity]) (f : FieldKind)
    (own : s.data.field? = some f) : ∀ n ∈ g, n.data.1.field? ≠ some f := by
  intro n hn other
  have joins := joins_of_match?_eq_none new.unmatched free (by
    intro y hy
    obtain ⟨m, hm, rfl⟩ := List.mem_map.1 hy
    exact h.free m (List.mem_reverse.1 hm)) (step n)
      (List.mem_map_of_mem (List.mem_reverse.2 hn))
  have hsd : s.data = .field f := by
    cases hd : s.data <;> simp_all [Tag.field?]
  have hnd : n.data.1 = .field f := by
    cases hd : n.data.1 <;> simp_all [Tag.field?]
  rw [joins_regrowth] at joins
  simp [step, hsd, hnd, Tag.same, Tag.isWrapper] at joins

theorem field?_of_meets (hfun : Determines known) {n : Node (Tag × Nat)} {s : Step Tag}
    {later earlier : List (Step Tag)} (hn : known n.data.2 n.data.1.field?)
    (hs : known s.origin s.data.field?) (h : Meets (regrowth order) s later (step n) earlier) :
    n.data.1.field? = s.data.field? := by
  cases h with
  | twin own _ =>
    have own : n.data.2 = s.origin := own
    rw [own] at hn
    exact hfun _ _ _ hn hs
  | alike _ joined _ =>
    rw [joins_regrowth, Bool.and_eq_true] at joined
    exact field?_eq_of_same joined.2

/-- Laying a path into a level lays what it holds of a field below the field. -/
theorem IsLevel.insert (hfun : Determines known) (hg : IsLevel known g)
    {p : Path Tag} (hp : ∀ s ∈ p.head?, known s.origin s.data.field? ∧
      s.data.category ∈ [Category.field, .conditional, .listItem, .entity]) :
    IsLevel known (insert (regrowth order) p g) ∧
      ∀ f, fieldPart f (insert (regrowth order) p g) =
        insertAll (regrowth order) (fieldRest? f p).toList (fieldPart f g) := by
  rcases p with _ | ⟨s, rest⟩
  · exact ⟨hg, fun _ => rfl⟩
  obtain ⟨number, free⟩ := hp s rfl
  rcases meets_or_isNew (regrowth order) s g with ⟨before, n, after, rfl, meets⟩ | new
  · rw [insert_of_meets _ meets]
    have field := field?_of_meets hfun (hg.known n (by simp)) number meets
    have kept : (Step.settle (step n) s).1.field? = n.data.1.field? ∧
        (Step.settle (step n) s).1.category ∈
          [Category.field, .conditional, .listItem, .entity] :=
      settle_of_both (P := fun t => t.field? = n.data.1.field? ∧
        t.category ∈ [Category.field, .conditional, .listItem, .entity])
        ⟨rfl, hg.free n (by simp)⟩ ⟨field.symm, free⟩
    have there : known n.data.2 (Step.settle (step n) s).1.field? := by
      rw [kept.1]
      exact hg.known n (by simp)
    refine ⟨hg.replace there kept.2 kept.1, fun f => ?_⟩
    have settled : ((regrowth order).combine (step n) s).1.field? = s.data.field? :=
      kept.1.trans field
    rw [fieldPart_append, fieldPart_cons, fieldPart_append, fieldPart_cons]
    simp only [settled, field, fieldRest?]
    by_cases own : s.data.field? = some f
    · obtain ⟨alone, alone'⟩ := List.forall_mem_append.1 (hg.alone (field.trans own))
      simp [own, fieldPart_eq_nil alone, fieldPart_eq_nil alone', Growth.insertAll]
    · simp [own, Growth.insertAll]
  · obtain ⟨before, after, rfl, grown, -⟩ := exists_of_isNew new
    rw [grown]
    have alone := hg.alone_of_isNew new free
    refine ⟨hg.add number free alone, fun f => ?_⟩
    rw [fieldPart_append, fieldPart_cons, fieldPart_append]
    simp only [fieldRest?]
    by_cases own : s.data.field? = some f
    · obtain ⟨first, last⟩ := List.forall_mem_append.1 (alone f own)
      simp [own, fieldPart_eq_nil first, fieldPart_eq_nil last, Growth.insertAll]
    · simp [own, Growth.insertAll]

theorem IsLevel.insertAll (hfun : Determines known) (hg : IsLevel known g)
    {paths : List (Path Tag)} (hp : ∀ p ∈ paths, ∀ s ∈ p.head?, known s.origin s.data.field? ∧
      s.data.category ∈ [Category.field, .conditional, .listItem, .entity]) (f : FieldKind) :
    fieldPart f (insertAll (regrowth order) paths g) =
      Growth.insertAll (regrowth order) (paths.filterMap (fieldRest? f)) (fieldPart f g) := by
  induction paths generalizing g with
  | nil => rfl
  | cons p paths ih =>
    obtain ⟨hlevel, hpart⟩ := hg.insert hfun (hp p (by simp))
    rw [insertAll_cons, ih hlevel (fun q hq => hp q (by simp [hq])), hpart f, ← insertAll_append]
    rcases hr : fieldRest? f p with _ | r <;> simp [hr]

theorem exists_of_isEntityOf {kind : EntityKind} {key : String} {t : Tag}
    (h : t.isEntityOf kind key = true) : ∃ e, t = .entity e ∧ e.kind = kind ∧ e.key = key :=
  Address.exists_entity_of_isTarget (a := ⟨kind, key, .name⟩) h

theorem insert_root {kind : EntityKind} {key : String} {t : Step Tag}
    (ht : t.data.isEntityOf kind key = true) {n : Node (Tag × Nat)}
    (hn : n.data.1.isEntityOf kind key = true) (r : Path Tag) :
    insert (regrowth order) (t :: r) [n] = [⟨(((step n).settle t).1, n.data.2),
        ((step n).settle t).2, insert (regrowth order) r n.children⟩] ∧
      ((step n).settle t).1.isEntityOf kind key = true := by
  have hjoins : joins (regrowth order) t (step n) = true := by
    obtain ⟨e, he, hkind, hkey⟩ := exists_of_isEntityOf ht
    obtain ⟨e', he', hkind', hkey'⟩ := exists_of_isEntityOf hn
    simp [joins_regrowth, step, he, he', Tag.isWrapper, Tag.same, hkind, hkind', hkey, hkey']
  have hmeets : Meets (regrowth order) t ([].reverse.map step) (step n) ([].reverse.map step) := by
    by_cases ho : n.data.2 = t.origin
    · exact .twin ho (by simp)
    · exact .alike (by simpa [step] using ho) hjoins (by simp)
  refine ⟨insert_of_meets r hmeets, ?_⟩
  exact settle_of_both (P := fun x => x.isEntityOf kind key = true) hn ht

theorem insertAll_root {kind : EntityKind} {key : String} {paths : List (Path Tag)}
    (hp : ∀ p ∈ paths, ∃ t r, p = t :: r ∧ t.data.isEntityOf kind key = true)
    {n : Node (Tag × Nat)} (hn : n.data.1.isEntityOf kind key = true) :
    ∃ m, insertAll (regrowth order) paths [n] = [m] ∧ m.data.1.isEntityOf kind key = true ∧
      m.children = insertAll (regrowth order) (paths.map List.tail) n.children ∧
      m.extra.id =
        n.extra.id.or (paths.findSome? (fun p => p.head?.bind (fun t => t.extra.id))) := by
  induction paths generalizing n with
  | nil => exact ⟨n, rfl, hn, rfl, by simp⟩
  | cons p paths ih =>
    obtain ⟨t, r, rfl, ht⟩ := hp p (by simp)
    obtain ⟨hput, hm⟩ := insert_root ht hn r
    obtain ⟨m, hins, hmt, hch, hid⟩ := ih (fun q hq => hp q (by simp [hq]))
      (n := ⟨(((step n).settle t).1, n.data.2), ((step n).settle t).2,
        insert (regrowth order) r n.children⟩) hm
    refine ⟨m, ?_, hmt, ?_, ?_⟩
    · rw [insertAll_cons, hput]
      exact hins
    · rw [hch]
      rfl
    · rw [hid, List.findSome?_cons]
      simp only [Step.settle, step, List.head?_cons, Option.bind_some]
      cases n.extra.id <;> cases t.extra.id <;> rfl

theorem insert_nil (s : Step Tag) (r : Path Tag) :
    insert (regrowth order) (s :: r) [] =
      [⟨(s.data, s.origin), s.extra, insert (regrowth order) r []⟩] := by
  have hisNew : IsNew (regrowth order) s (([] : Growth Tag).reverse.map step) := ⟨by simp, rfl⟩
  obtain ⟨before, after, hnil, hput, -⟩ := exists_of_isNew hisNew
  obtain ⟨rfl, rfl⟩ := List.append_eq_nil_iff.1 hnil.symm
  exact hput r

theorem insertAll_starts {kind : EntityKind} {key : String} {paths : List (Path Tag)}
    (hp : ∀ p ∈ paths, ∃ t r, p = t :: r ∧ t.data.isEntityOf kind key = true)
    (hne : paths ≠ []) :
    ∃ m, insertAll (regrowth order) paths [] = [m] ∧ m.data.1.isEntityOf kind key = true ∧
      m.children = insertAll (regrowth order) (paths.map List.tail) [] ∧
      m.extra.id = paths.findSome? (fun p => p.head?.bind (fun t => t.extra.id)) := by
  rcases paths with _ | ⟨p, paths⟩
  · exact absurd rfl hne
  · obtain ⟨t, r, rfl, ht⟩ := hp p (by simp)
    have htree : (⟨(t.data, t.origin), t.extra, insert (regrowth order) r []⟩ :
        Node (Tag × Nat)).data.1.isEntityOf kind key = true := ht
    obtain ⟨m, hroot, hm, hchildren, hid⟩ : ∃ m : Node (Tag × Nat),
        insertAll (regrowth order) paths _ = [m] ∧ _ ∧ _ ∧ _ :=
      insertAll_root (fun q hq => hp q (List.mem_cons_of_mem _ hq)) htree
    refine ⟨m, ?_, hm, hchildren, ?_⟩
    · rw [insertAll_cons, insert_nil, hroot]
    · rw [hid, List.findSome?_cons]
      simp only [List.head?_cons, Option.bind_some]
      cases t.extra.id <;> rfl

end Level

end WorldMarkup.Growth

namespace WorldMarkup.Address

open Growth
open Ownership (slot?)
open SplitChain (complete)

variable {a : Address} {docs : List (Path Tag)}

theorem forest_fieldPart (f : FieldKind) (g : Growth Tag) :
    Growth.forest (fieldPart f g) =
      (List.filter (fun n : Node Tag => decide (n.data.field? = some f)) g.forest).flatMap
        Node.children := by
  induction g with
  | nil => rfl
  | cons n g ih =>
    rcases n with ⟨⟨d, o⟩, e, cs⟩
    have hforest : Growth.forest (⟨(d, o), e, cs⟩ :: g) =
        ⟨d, e, Growth.forest cs⟩ :: Growth.forest g := rfl
    have happend (x y : Growth Tag) :
        Growth.forest (x ++ y) = Growth.forest x ++ Growth.forest y := by
      simp [Growth.forest, Forest.map_eq]
    rw [hforest, List.filter_cons]
    simp only [fieldPart, List.filter_cons] at ih ⊢
    split
    · rw [List.flatMap_cons, List.flatMap_cons, happend, ih]
    · exact ih

theorem determines_labels (hdocs : AreContent docs) : Determines (Labels docs) := by
  rintro o f g ⟨p, hp, x, hx, rfl, rfl⟩ ⟨q, hq, y, hy, ho, rfl⟩
  obtain ⟨u, v, rfl⟩ := List.append_of_mem hx
  obtain ⟨u', v', rfl⟩ := List.append_of_mem hy
  obtain ⟨-, rfl⟩ := hdocs.agree hp hq ho.symm
  rfl

theorem filterMap_eq_map_filter {β γ : Type} {F : β → Option γ} {test : β → Bool} {g : β → γ}
    {l : List β} (h : ∀ x ∈ l, F x = if test x then some (g x) else none) :
    l.filterMap F = (l.filter test).map g := by
  induction l with
  | nil => rfl
  | cons x l ih =>
    rw [List.filterMap_cons, h x (by simp), ih (fun y hy => h y (by simp [hy])), List.filter_cons]
    by_cases hx : test x = true <;> simp [hx]

theorem fieldRest?_reorder {p : Path Tag} (h : a.Routes p) (f : FieldKind) :
    fieldRest? f (Path.reorder (Standardize.reorderings a.kind a.key) p).tail =
      if slot? a.kind p = some f then some p.kept else none := by
  rcases hslot : slot? a.kind p with _ | g
  · obtain ⟨t, r, -, hr, hhead⟩ := h.elsewhere hslot
    rw [hr]
    rcases r with _ | ⟨s, r⟩
    · rfl
    · obtain ⟨-, hs, -⟩ := hhead s rfl
      simp [fieldRest?, hs]
  · obtain ⟨t, x, -, hx, -, hr⟩ := h.into_field hslot
    rw [hr]
    simp [fieldRest?, hx, Tag.field?]

def childOrder : List Category := [.field, .listItem, .entity]

theorem growComponent_eq {grown : Forest Tag} {paths : List (Path Tag)}
    (h : Standardize.growComponent a.kind a.key paths = .ok grown) :
    grown = Growth.forest (insertAll (regrowth childOrder)
      ((complete a.kind a.key paths).map
        (Path.reorder (Standardize.reorderings a.kind a.key))) []) := by
  rw [Standardize.growComponent, Outline.ofPaths] at h
  rcases hfault : (complete a.kind a.key paths).findSome? (Path.fault? worldRules.isWrapper) with
    _ | fault
  · rw [hfault] at h
    exact (Except.ok.inj h).symm
  · rw [hfault] at h
    exact absurd h (by simp)

section Growing

variable {ps : List (Path Tag)} (hroutes : ∀ p ∈ ps, a.Routes p)
  (hlabels : ∀ p ∈ ps, ∀ s ∈ p, Labels docs s.origin s.data.field?)

include hroutes

theorem starts_of_routes :
    ∀ q ∈ ps.map (Path.reorder (Standardize.reorderings a.kind a.key)),
      ∃ t r, q = t :: r ∧ t.data.isEntityOf a.kind a.key = true := by
  intro q hq
  obtain ⟨p, hp, rfl⟩ := List.mem_map.1 hq
  rcases hslot : slot? a.kind p with _ | g
  · obtain ⟨t, r, ht, hr, -⟩ := (hroutes p hp).elsewhere hslot
    exact ⟨t, r, hr, ht⟩
  · obtain ⟨t, x, ht, -, -, hr⟩ := (hroutes p hp).into_field hslot
    exact ⟨t, _, hr, ht⟩

include hlabels in
theorem level_of_routes :
    ∀ q ∈ (ps.map (Path.reorder (Standardize.reorderings a.kind a.key))).map List.tail,
      ∀ s ∈ q.head?, Labels docs s.origin s.data.field? ∧
        s.data.category ∈ [Category.field, .conditional, .listItem, .entity] := by
  intro q hq s hs
  obtain ⟨p', hp', rfl⟩ := List.mem_map.1 hq
  obtain ⟨p, hp, rfl⟩ := List.mem_map.1 hp'
  rcases hslot : slot? a.kind p with _ | g
  · obtain ⟨t, r, -, hr, hhead⟩ := (hroutes p hp).elsewhere hslot
    rw [hr] at hs
    obtain ⟨hmem, -, hcategory⟩ := hhead s hs
    exact ⟨hlabels p hp s hmem, List.mem_cons_of_mem _ hcategory⟩
  · obtain ⟨t, x, -, hx, hmem, hr⟩ := (hroutes p hp).into_field hslot
    rw [hr] at hs
    obtain rfl : x = s := by simpa using hs
    exact ⟨hlabels p hp x hmem, by simp [hx, Tag.category]⟩

theorem rests_of_routes (f : FieldKind) :
    ((ps.map (Path.reorder (Standardize.reorderings a.kind a.key))).map List.tail).filterMap
        (fieldRest? f) =
      (ps.filter (fun q => decide (slot? a.kind q = some f))).map Path.kept := by
  rw [List.map_map, List.filterMap_map]
  refine filterMap_eq_map_filter (fun p hp => ?_)
  simp [fieldRest?_reorder (hroutes p hp)]

include hlabels in
theorem grown_of_routes (hdocs : AreContent docs) (hne : ps ≠ []) :
    ∃ n : Node (Tag × Nat), insertAll (regrowth childOrder)
        (ps.map (Path.reorder (Standardize.reorderings a.kind a.key))) [] = [n] ∧
      n.data.1.isEntityOf a.kind a.key = true ∧
      ∀ f, fieldPart f n.children = insertAll (regrowth childOrder)
        ((ps.filter (fun q => decide (slot? a.kind q = some f))).map Path.kept) [] := by
  have hempty : IsLevel (Labels docs) [] := ⟨by simp, by simp, by simp⟩
  obtain ⟨n, hroot, hn, hchildren, -⟩ := insertAll_starts (starts_of_routes hroutes) (by simpa)
  refine ⟨n, hroot, hn, fun f => ?_⟩
  rw [hchildren, ← rests_of_routes hroutes f]
  exact hempty.insertAll (determines_labels hdocs) (level_of_routes hroutes hlabels) f

end Growing

/-- The paths of a component grow into one tree, and its field grows from what the completed paths
hold there. -/
theorem grown_field (hdocs : AreContent docs) {grown : Forest Tag}
    (h : Standardize.growComponent a.kind a.key (a.view docs) = .ok grown) :
    grown = [] ∨ ∃ root, grown = [root] ∧ root.data.isEntityOf a.kind a.key = true ∧
      (List.filter (fun n : Node Tag => decide (n.data.field? = some a.field))
        root.children).flatMap Node.children =
      Growth.forest (insertAll (regrowth childOrder)
        (((complete a.kind a.key (a.view docs)).filter
          (fun q => decide (slot? a.kind q = some a.field))).map Path.kept) []) := by
  have hgrown := growComponent_eq h
  by_cases hne : complete a.kind a.key (a.view docs) = []
  · left
    rw [hgrown, hne]
    rfl
  · right
    obtain ⟨n, hroot, hn, hpart⟩ := grown_of_routes
      (fun p hp => routes_of_mem_complete hdocs hp) (fun p hp s hs => labels_of_mem_complete hp hs)
      hdocs hne
    refine ⟨⟨n.data.1, n.extra, Growth.forest n.children⟩, ?_, hn, ?_⟩
    · rw [hgrown, hroot]
      cases n
      rfl
    · rw [← forest_fieldPart, hpart]

end WorldMarkup.Address
