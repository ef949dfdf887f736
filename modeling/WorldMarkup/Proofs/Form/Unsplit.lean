import WorldMarkup.Proofs.Form.Components
import WorldMarkup.Proofs.Form.Copies
import WorldMarkup.Proofs.Tree.Refolding
import WorldMarkup.Proofs.Tree.Wrappers

/-!
Views that are complete as they stand. Where each conditional stands in one slot no branch has to
stand elsewhere as well, and where each path starts at the entity no step has to move. Main
statement: the tree of such a component grows from what is seen of it, path by path.
-/

set_option autoImplicit false
set_option relaxedAutoImplicit false

namespace WorldMarkup

open Ownership (slot? ownedPath? splitAtLast? untilNested)
open SplitChain

theorem Path.fault?_eq_none {p : Path Tag} (short : p.length ≤ maxDepth)
    (ended : ∀ s, p.getLast? = some s → s.data.isWrapper = false) :
    Path.fault? Tag.isWrapper p = none := by
  rw [Path.fault?, if_neg (by omega)]
  cases last : p.getLast? with
  | none => rfl
  | some s => simp [ended s last]

theorem Entity.withoutSource_eq {e : Entity} (h : e.source = none) : e.withoutSource = e := by
  cases e <;> simp only [withoutSource, source] at h ⊢ <;> rw [← h]

namespace SplitChain

theorem sites_concat {u : Path Tag} {w b : Step Tag} (conditional : w.data = .conditional) :
    sites (u ++ [w, b]) = sites (u ++ [w]) ++ [⟨w.origin, b.origin, u ++ [w, b]⟩] := by
  suffices ∀ above : Path Tag, sitesFrom above (u ++ [w, b]) =
      sitesFrom above (u ++ [w]) ++ [⟨w.origin, b.origin, above ++ u ++ [w, b]⟩] by
    simpa [sites] using this []
  induction u with
  | nil => simp [sitesFrom, conditional]
  | cons s u ih =>
    intro above
    cases u with
    | nil => simp [sitesFrom, conditional]
    | cons s' u => simpa [sitesFrom] using ih (above ++ [s])

theorem nodup_reach (kind : EntityKind) (paths : List (Path Tag)) : (reach kind paths).Nodup :=
  nodup_eraseDups _

end SplitChain

namespace Address

variable {a : Address} {docs : List (Path Tag)} {o q : Path Tag}

/-- Each conditional on the paths stands in one slot, and a path that leads into no field of the
entity meets none. -/
structure IsUnsplit (a : Address) (paths : List (Path Tag)) : Prop where
  slots : ∀ p ∈ paths, ∀ q ∈ paths, ∀ w, Passes w p → Passes w q → slot? a.kind p = slot? a.kind q
  plain : ∀ p ∈ paths, slot? a.kind p = none → ∀ s ∈ p, s.data.field? = none

theorem standIns_eq_nil (unsplit : a.IsUnsplit (a.view docs)) (hq : q ∈ a.view docs)
    (stays : isKept a.kind (a.view docs) q = true) {s : Site} (hs : s ∈ sites q) :
    standIns a.kind a.key (a.view docs) s = [] := by
  suffices none : lacking a.kind (a.view docs) s = [] by simp [standIns, none]
  refine List.eq_nil_iff_forall_not_mem.2 fun r hr => ?_
  obtain ⟨-, reached, absent⟩ := mem_lacking.1 hr
  obtain ⟨p, hp, -, slot, passes⟩ := mem_reach_iff.1 reached
  obtain ⟨x, w, b, y, split, conditional, site⟩ := mem_sites.1 hs
  have passes' : Passes s.wrapper q := ⟨w, by simp [split], conditional, by simp [site]⟩
  refine absent (mem_present.2 ⟨q, hq, stays, ?_, s, hs, rfl⟩)
  rw [← slot, unsplit.slots q hq p hp _ passes' passes]

section Dropped

variable {x : Path Tag} {w b : Step Tag}

theorem lacking_dropped (unsplit : a.IsUnsplit (a.view docs)) (ho : x ++ [w, b] ∈ a.view docs)
    (conditional : w.data = .conditional) (slot : slot? a.kind (x ++ [w, b]) = none)
    (hq : q ∈ a.view docs) (stays : isKept a.kind (a.view docs) q = true)
    (passes : Passes w.origin q) (absent : (b.origin, none) ∉ present a.kind (a.view docs)) :
    lacking a.kind (a.view docs) ⟨w.origin, b.origin, x ++ [w, b]⟩ = [(w.origin, none)] := by
  have passes' : Passes w.origin (x ++ [w, b]) := ⟨w, by simp, conditional, rfl⟩
  have once : (lacking a.kind (a.view docs) ⟨w.origin, b.origin, x ++ [w, b]⟩).Nodup :=
    ((nodup_reach _ _).filter _).filter _
  refine List.perm_singleton.1
    ((List.perm_ext_iff_of_nodup once (List.nodup_singleton _)).2 fun r => ?_)
  rw [mem_lacking, List.mem_singleton]
  constructor
  · rintro ⟨number, reached, -⟩
    obtain ⟨p, hp, -, own, through⟩ := mem_reach_iff.1 reached
    exact Prod.ext number
      (own.symm.trans ((unsplit.slots p hp _ ho _ through passes').trans slot))
  · rintro rfl
    exact ⟨rfl, mem_reach_iff.2 ⟨_, hq, stays,
      (unsplit.slots _ hq _ ho _ passes passes').trans slot, passes⟩, absent⟩

theorem standIns_dropped (hdocs : AreContent docs) (unsplit : a.IsUnsplit (a.view docs))
    (ho : x ++ [w, b] ∈ a.view docs) (conditional : w.data = .conditional)
    (slot : slot? a.kind (x ++ [w, b]) = none) (hq : q ∈ a.view docs)
    (stays : isKept a.kind (a.view docs) q = true) (passes : Passes w.origin q)
    (absent : (b.origin, none) ∉ present a.kind (a.view docs)) :
    standIns a.kind a.key (a.view docs) ⟨w.origin, b.origin, x ++ [w, b]⟩ = [x ++ [w, b]] := by
  obtain ⟨t, once⟩ := target_view hdocs ho
  obtain ⟨ht, target⟩ := List.mem_filter.1 (once ▸ List.mem_singleton_self t)
  have entered : (x ++ [w, b]).any (fun s => s.data.isEntityOf a.kind a.key) = true :=
    List.any_eq_true.2 ⟨t, ht, target⟩
  have unfilled : (x ++ [w, b]).any (fun s => s.data.field?.isSome) = false :=
    List.any_eq_false.2 fun s hs => by simp [unsplit.plain _ ho slot s hs]
  rw [standIns, lacking_dropped unsplit ho conditional slot hq stays passes absent]
  simp [placeholder, entered, unfilled]

end Dropped

/-- A path that goes is all that stands in for the branches on it. -/
theorem flatMap_standIns (hdocs : AreContent docs) (apart : Path.AreApart docs)
    (owned : AreOwned (a.view docs)) (unsplit : a.IsUnsplit (a.view docs))
    {before after : List (Path Tag)} (split : a.view docs = before ++ o :: after) {seen : List Nat}
    (met : ∀ n ∈ seen, ∃ o' ∈ before, ∃ s ∈ sites o', s.branch = n)
    (goes : isKept a.kind (a.view docs) o = false) :
    (firsts Site.branch seen (sites o)).flatMap (standIns a.kind a.key (a.view docs)) = [o] := by
  have ho : o ∈ a.view docs := by simp [split]
  have alone := pairwise_view (a := a) hdocs apart
  rw [split, List.pairwise_append, List.pairwise_cons] at alone
  obtain ⟨-, ⟨later, -⟩, earlier⟩ := alone
  have dropped : IsDropped a.kind (a.view docs) o := by
    rwa [← Bool.not_eq_true, isKept_eq_true, not_not] at goes
  obtain ⟨v, ⟨slot, x, w, b, ends, conditional, branch, rfl⟩, q, hq, ⟨w', hw', conditional', same⟩,
    still⟩ := dropped
  -- the path with content through the conditional passes all branches but the last
  obtain ⟨x', y, rfl⟩ := List.append_of_mem hw'
  obtain ⟨rfl, rfl⟩ := owned.agree (x := x) (y := [b]) (w := w) (by simpa [ends] using ho) hq
    conditional conditional' same.symm
  have stays : isKept a.kind (a.view docs) (x ++ w :: y) = true := isKept_of_not_floats still
  have above : ∀ s ∈ sites (x ++ [w]), standIns a.kind a.key (a.view docs) s = [] := by
    intro s hs
    refine standIns_eq_nil unsplit hq stays ?_
    obtain ⟨z, w', b', y', split', rest⟩ := mem_sites.1 hs
    refine mem_sites.2 ⟨z, w', b', y' ++ y, ?_, rest⟩
    rw [show x ++ w :: y = (x ++ [w]) ++ y by simp, split']
    simp
  have unmet : b.origin ∉ seen := by
    intro hmem
    obtain ⟨o', ho', s, hs, same⟩ := met _ hmem
    exact (earlier o' ho' o List.mem_cons_self).2 x w b ends branch s hs same
  have fresh : b.origin ∉ (sites (x ++ [w])).map Site.branch := by
    intro hmem
    obtain ⟨s, hs, same⟩ := List.mem_map.1 hmem
    obtain ⟨z, w', b', y', split', -, rfl⟩ := mem_sites.1 hs
    have once := nodup_view hdocs ho
    rw [ends, show x ++ [w, b] = (x ++ [w]) ++ [b] by simp, List.map_append,
      List.nodup_append] at once
    exact once.2.2 b'.origin (by simp [split']) b.origin (by simp) same
  have absent : (b.origin, none) ∉ present a.kind (a.view docs) := by
    intro hmem
    obtain ⟨o', ho', kept, -, s, hs, same⟩ := mem_present.1 hmem
    rw [split, List.mem_append, List.mem_cons] at ho'
    rcases ho' with ho' | rfl | ho'
    · exact (earlier o' ho' o List.mem_cons_self).2 x w b ends branch s hs same
    · simp [goes] at kept
    · exact (later o' ho').1 x w b ends branch s hs same
  have itself := standIns_dropped hdocs unsplit (ends ▸ ho) conditional (ends ▸ slot) hq stays
    ⟨w, by simp, conditional, rfl⟩ absent
  have last : firsts Site.branch (((sites (x ++ [w])).map Site.branch).reverse ++ seen)
      [⟨w.origin, b.origin, x ++ [w, b]⟩] = [⟨w.origin, b.origin, x ++ [w, b]⟩] := by
    rw [firsts, if_neg (by simpa [unmet] using fresh)]
    rfl
  rw [ends, sites_concat conditional, firsts_append, List.flatMap_append, last,
    List.flatMap_eq_nil_iff.2 fun s hs => above s (mem_of_mem_firsts hs).1, List.flatMap_singleton,
    List.nil_append, itself]

theorem laid_of_unsplit (hdocs : AreContent docs) (apart : Path.AreApart docs)
    (owned : AreOwned (a.view docs)) (unsplit : a.IsUnsplit (a.view docs))
    {before ps : List (Path Tag)} (split : a.view docs = before ++ ps) {seen : List Nat}
    (met : ∀ n ∈ seen, ∃ o' ∈ before, ∃ s ∈ sites o', s.branch = n) :
    laid a.kind a.key (a.view docs) seen ps = ps := by
  induction ps generalizing before seen with
  | nil => rfl
  | cons o ps ih =>
    have met' : ∀ n ∈ ((sites o).map Site.branch).reverse ++ seen,
        ∃ o' ∈ before ++ [o], ∃ s ∈ sites o', s.branch = n := by
      intro n hn
      rcases List.mem_append.1 hn with own | earlier
      · obtain ⟨s, hs, same⟩ := List.mem_map.1 (List.mem_reverse.1 own)
        exact ⟨o, by simp, s, hs, same⟩
      · obtain ⟨o', ho', found⟩ := met n earlier
        exact ⟨o', by simp [ho'], found⟩
    have ho : o ∈ a.view docs := by simp [split]
    rw [laid, ih (show a.view docs = (before ++ [o]) ++ ps by simp [split]) met']
    suffices here : (if isKept a.kind (a.view docs) o then [o] else []) ++
        (firsts Site.branch seen (sites o)).flatMap (standIns a.kind a.key (a.view docs)) = [o] by
      rw [here, List.singleton_append]
    cases stays : isKept a.kind (a.view docs) o with
    | true =>
      have none : (firsts Site.branch seen (sites o)).flatMap
          (standIns a.kind a.key (a.view docs)) = [] :=
        List.flatMap_eq_nil_iff.2 fun s hs =>
          standIns_eq_nil unsplit ho stays (mem_of_mem_firsts hs).1
      simp [none]
    | false =>
      rw [if_neg Bool.false_ne_true, List.nil_append,
        flatMap_standIns hdocs apart owned unsplit split met stays]

/-- A view whose conditionals each stand in one slot is complete. -/
theorem complete_of_unsplit (hdocs : AreContent docs) (apart : Path.AreApart docs)
    (owned : AreOwned (a.view docs)) (unsplit : a.IsUnsplit (a.view docs)) :
    complete a.kind a.key (a.view docs) = a.view docs := by
  rw [complete_eq_laid]
  exact laid_of_unsplit hdocs apart owned unsplit (List.nil_append _).symm (by simp)

/-- A bare reference to the entity. -/
def Refers (a : Address) (o : Path Tag) : Prop :=
  ∃ s, o = [s] ∧ a.isTarget s.data = true ∧ s.data.withoutSource = s.data ∧ s.extra = {}

theorem fault?_of_isTarget {s : Step Tag} (h : a.isTarget s.data = true) :
    Path.fault? Tag.isWrapper [s] = none := by
  obtain ⟨e, entity, -⟩ := exists_entity_of_isTarget h
  exact Path.fault?_eq_none (by simp [maxDepth]) (by simp [entity, Tag.isWrapper])

/-- The path starts at the entity, and a field on it is the next step. -/
def Heads (a : Address) (p : Path Tag) : Prop :=
  ∃ t r, p = t :: r ∧ a.isTarget t.data = true ∧
    ((∃ x g d, r = x :: d ∧ x.data = .field g ∧ a.kind.hasField g = true ∧
        ∀ s ∈ d, s.data.isKept = true) ∨
      ∀ s ∈ r, s.data.field? = none ∧ a.isTarget s.data = false)

theorem Heads.reorder {p : Path Tag} (h : a.Heads p) :
    Path.reorder (Standardize.reorderings a.kind a.key) p = p := by
  obtain ⟨t, r, rfl, target, ⟨x, g, d, rfl, field, -, inner⟩ | beside⟩ := h
  · exact reorder_into (c := []) (m := []) (by simp) target (by simp) field inner
  · exact reorder_beside (c := []) (by simp) target beside

theorem field?_of_isTarget {t : Tag} (h : a.isTarget t = true) : t.field? = none := by
  obtain ⟨e, rfl, -⟩ := exists_entity_of_isTarget h
  rfl

theorem Heads.slot? {p : Path Tag} (h : a.Heads p) :
    (∃ t x g d, p = t :: x :: d ∧ a.isTarget t.data = true ∧ x.data = .field g ∧
        Ownership.slot? a.kind p = some g) ∨
      Ownership.slot? a.kind p = none ∧ ∀ s ∈ p, s.data.field? = none := by
  obtain ⟨t, r, rfl, target, ⟨x, g, d, rfl, field, declared, inner⟩ | beside⟩ := h
  · refine .inl ⟨t, x, g, d, rfl, target, field, ?_⟩
    have own : x.data.field?.filter a.kind.hasField = some g := by
      simp [field, Tag.field?, declared]
    rw [Ownership.slot?, List.findSome?_cons, field?_of_isTarget target, Option.filter_none,
      List.findSome?_cons, own]
  · refine .inr ⟨?_, ?_⟩
    · refine List.findSome?_eq_none_iff.2 fun s hs => ?_
      rcases List.mem_cons.1 hs with rfl | hs
      · simp [field?_of_isTarget target]
      · simp [(beside s hs).1]
    · intro s hs
      rcases List.mem_cons.1 hs with rfl | hs
      · exact field?_of_isTarget target
      · exact (beside s hs).1

theorem isUnsplit_of_heads (owned : AreOwned (a.view docs))
    (heads : ∀ p ∈ a.view docs, a.Heads p) : a.IsUnsplit (a.view docs) where
  slots := by
    -- below the entity a conditional is led to by one path, and so by one field or by none
    have same {p q : Path Tag} (hp : p ∈ a.view docs) (hq : q ∈ a.view docs) {w : Nat}
        (passes : Passes w p) (passes' : Passes w q) {t x : Step Tag} {g : FieldKind} {d : Path Tag}
        (split : p = t :: x :: d) (target : a.isTarget t.data = true) (field : x.data = .field g) :
        x ∈ q := by
      obtain ⟨s, hs, conditional, rfl⟩ := passes
      obtain ⟨s', hs', conditional', same⟩ := passes'
      rw [split] at hs
      have inside : s ∈ d := by
        rcases List.mem_cons.1 hs with rfl | hs
        · obtain ⟨e, entity, -⟩ := exists_entity_of_isTarget target
          simp [conditional] at entity
        · rcases List.mem_cons.1 hs with rfl | hs
          · simp [conditional] at field
          · exact hs
      obtain ⟨y, z, rfl⟩ := List.append_of_mem inside
      obtain ⟨y', z', rfl⟩ := List.append_of_mem hs'
      obtain ⟨rfl, -⟩ := owned.agree (x := t :: x :: y) (y := z) (by simpa [split] using hp) hq
        conditional conditional' same.symm
      simp
    intro p hp q hq w passes passes'
    rcases (heads p hp).slot? with ⟨t, x, g, d, split, target, field, slot⟩ | ⟨slot, plain⟩ <;>
      rcases (heads q hq).slot? with ⟨t', x', g', d', split', target', field', slot'⟩ |
        ⟨slot', plain'⟩
    · have shared := same hp hq passes passes' split target field
      have alone := owned.alone (x := [t']) (y := d') (f := x') (by simpa [split'] using hq)
        (by simp [field', Tag.field?])
      rw [split', List.mem_cons, List.mem_cons] at shared
      rcases shared with rfl | rfl | shared
      · have := field?_of_isTarget target'
        simp [field, Tag.field?] at this
      · rw [field, Tag.field.injEq] at field'
        rw [slot, slot', field']
      · simpa [field, Tag.field?] using alone x shared
    · have := plain' x (same hp hq passes passes' split target field)
      simp [field, Tag.field?] at this
    · have := plain x' (same hq hp passes' passes split' target' field')
      simp [field', Tag.field?] at this
    · rw [slot, slot']
  plain := by
    intro p hp slot
    rcases (heads p hp).slot? with ⟨-, -, g, -, -, -, -, slot'⟩ | ⟨-, plain⟩
    · simp [slot] at slot'
    · exact plain

theorem growComponent_of_heads (hdocs : AreContent docs) (apart : Path.AreApart docs)
    (owned : AreOwned (a.view docs)) (heads : ∀ p ∈ a.view docs, a.Heads p)
    (faultless : ∀ p ∈ a.view docs, Path.fault? Tag.isWrapper p = none) :
    Standardize.growComponent a.kind a.key (a.view docs) =
      .ok (Growth.insertAll (Growth.regrowth childOrder) (a.view docs) []).forest := by
  have whole := complete_of_unsplit hdocs apart owned (isUnsplit_of_heads owned heads)
  have found : (a.view docs).findSome? (Path.fault? worldRules.isWrapper) = none :=
    List.findSome?_eq_none_iff.2 faultless
  have stays : (a.view docs).map (Path.reorder (Standardize.reorderings a.kind a.key)) =
      a.view docs :=
    (List.map_congr_left fun p hp => (heads p hp).reorder).trans (List.map_id _)
  rw [Standardize.growComponent, Outline.ofPaths, whole, found]
  exact congrArg (fun paths => Except.ok (Growth.forest (Growth.insertAll
    (Growth.regrowth childOrder) paths []))) stays

end Address

end WorldMarkup
