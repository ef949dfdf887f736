import WorldMarkup.Proofs.Form.Routing

/-!
The entity on the completed paths of a component. Each of them passes through the entity once, and
completion leaves the entity of every path in its place: a path that goes because its conditional
reaches a slot is stood in for, and elsewhere stands at most the first entity again. Main
statements: completion keeps the first id that the entity bears, and the tree that grows bears it.
-/

set_option autoImplicit false
set_option relaxedAutoImplicit false

namespace WorldMarkup

open Ownership (untilNested ownedPath? slot?)
open SplitChain

/-! ### Ids on paths -/

theorem findSome?_filter {β γ : Type} {test : β → Bool} {f : β → Option γ} {l : List β} :
    (l.filter test).findSome? f = l.findSome? (fun x => if test x then f x else none) := by
  rw [← List.head?_filterMap, List.filterMap_filter, List.head?_filterMap]

theorem findSome?_filterMap {β γ δ : Type} {f : β → Option γ} {g : γ → Option δ} {l : List β} :
    (l.filterMap f).findSome? g = l.findSome? (fun x => (f x).bind g) := by
  rw [← List.head?_filterMap, List.filterMap_filterMap, List.head?_filterMap]

theorem findSome?_congr {β γ : Type} {f g : β → Option γ} {l : List β}
    (h : ∀ x ∈ l, f x = g x) : l.findSome? f = l.findSome? g := by
  rw [← List.head?_filterMap, List.filterMap_congr h, List.head?_filterMap]

theorem findSome?_eq_of_forall {β γ : Type} {f : β → Option γ} {l : List β} {v : Option γ}
    (all : ∀ x ∈ l, f x = v ∨ f x = none) (found : ∃ x ∈ l, f x = v) : l.findSome? f = v := by
  obtain ⟨z, hz, found⟩ := found
  cases first : l.findSome? f with
  | none => exact (List.findSome?_eq_none_iff.1 first z hz).symm.trans found
  | some y =>
    obtain ⟨x, hx, own⟩ := List.exists_of_findSome?_eq_some first
    rcases all x hx with same | none
    · exact own.symm.trans same
    · simp [none] at own

/-- The first id that the entity bears on a path. -/
def Path.firstId? (kind : EntityKind) (key : String) (p : Path Tag) : Option String :=
  p.findSome? (fun s => if s.data.isEntityOf kind key then s.extra.id else none)

theorem Path.firstId?_eq_filter (kind : EntityKind) (key : String) (p : Path Tag) :
    p.firstId? kind key =
      (List.filter (fun s => s.data.isEntityOf kind key) p).findSome? (fun s => s.extra.id) :=
  findSome?_filter.symm

namespace Address

variable {a : Address} {docs : List (Path Tag)}

theorem Routes.target {p : Path Tag} (h : a.Routes p) :
    ∃ t r, Path.reorder (Standardize.reorderings a.kind a.key) p = t :: r ∧
      List.filter (fun s => a.isTarget s.data) p = [t] := by
  have chains {c : Path Tag} (hc : ∀ s ∈ c, s.data.isChain = true) :
      List.filter (fun s => a.isTarget s.data) c = [] := by
    rw [List.filter_eq_nil_iff]
    intro s hs
    have := hc s hs
    cases hd : s.data <;> simp_all [Tag.isChain, isTarget, Tag.isEntityOf]
  have others {c : Path Tag} (hc : ∀ s ∈ c, a.isTarget s.data = false) :
      List.filter (fun s => a.isTarget s.data) c = [] := by
    rw [List.filter_eq_nil_iff]
    exact fun s hs => by simp [hc s hs]
  cases h with
  | @into c m d t x above target below g field declared inner =>
    refine ⟨t, _, reorder_into above target below field inner, ?_⟩
    have own : a.isTarget x.data = false := by simp [field, isTarget, Tag.isEntityOf]
    have kept : ∀ s ∈ d, a.isTarget s.data = false := by
      intro s hs
      have := inner s hs
      cases hd : s.data <;>
        simp_all [Tag.isKept, Tag.isChain, Tag.category, isTarget, Tag.isEntityOf]
    simp [chains above, chains below, others kept, target, own]
  | @beside c m t above target below first =>
    refine ⟨t, _, reorder_beside above target below, ?_⟩
    simp [chains above, others (fun s hs => (below s hs).2), target]

/-! ### Paths that are seen to end at a branch -/

theorem getLast?_untilNested {q : Path Tag} {b : Step Tag} (h : (untilNested q).getLast? = some b)
    (hb : b.data.entity? = none) : q.getLast? = some b := by
  induction q with
  | nil => simp [untilNested] at h
  | cons s q ih =>
    rw [untilNested] at h
    split at h
    · obtain rfl : ⟨s.data.withoutSource, {}, s.origin⟩ = b := by simpa using h
      cases hd : s.data <;> simp_all [Tag.withoutSource, Tag.entity?]
    · cases q with
      | nil => simpa [untilNested] using h
      | cons x q =>
        rw [List.getLast?_cons_of_ne_nil (by unfold untilNested; split <;> simp)] at h
        rw [List.getLast?_cons_cons]
        exact ih h

theorem exists_concat_of_ownedPath? {p u : Path Tag} {w b : Step Tag}
    (ho : ownedPath? a.kind a.key p = some (u ++ [w, b])) (hb : b.data.entity? = none) :
    ∃ x, p = x ++ [b] := by
  obtain ⟨above, t, below, rfl, -, -, ⟨-, heq⟩ | ⟨more, heq⟩⟩ := ownedPath?_cases ho
  · simpa using congrArg List.length heq
  · have seen : (untilNested below).getLast? = some b := by
      have last := congrArg List.getLast? heq
      have some : untilNested below ≠ [] := by
        cases below with
        | nil => exact absurd rfl more
        | cons x below => unfold untilNested; split <;> simp
      rw [List.getLast?_append, List.getLast?_append, List.getLast?_cons_of_ne_nil some] at last
      simpa [List.getLast?_eq_some_getLast some] using last.symm
    obtain ⟨x, rfl⟩ := List.getLast?_eq_some_iff.1 (getLast?_untilNested seen hb)
    exact ⟨above ++ t :: x, by simp⟩

theorem prefix_of_branch (hdocs : AreContent docs) {p p' o o' u : Path Tag} {w b s : Step Tag}
    (hp : p ∈ docs) (hp' : p' ∈ docs) (ho : ownedPath? a.kind a.key p = some o)
    (ho' : ownedPath? a.kind a.key p' = some o') (ends : o = u ++ [w, b])
    (hb : b.data.entity? = none) (hs : s ∈ o') (same : s.origin = b.origin) : p <+: p' := by
  subst ends
  obtain ⟨x, rfl⟩ := exists_concat_of_ownedPath? ho hb
  have labels := (sublist_ownedPath? ho').subset (List.mem_map_of_mem hs)
  obtain ⟨y, hy, label⟩ := List.mem_map.1 labels
  obtain ⟨x', z, rfl⟩ := List.append_of_mem hy
  have origin : b.origin = y.origin := same.symm.trans (congrArg Prod.fst label).symm
  obtain ⟨rfl, rfl⟩ := hdocs.agree hp hp' origin
  exact ⟨z, by simp⟩

theorem AreContent.nodup (hdocs : AreContent docs) {p : Path Tag} (hp : p ∈ docs) :
    (p.map Step.origin).Nodup := by
  suffices later : ∀ y x : Path Tag, p = x ++ y → (y.map Step.origin).Nodup from later p [] rfl
  intro y
  induction y with
  | nil => simp
  | cons s y ih =>
    intro x split
    rw [List.map_cons, List.nodup_cons]
    refine ⟨fun again => ?_, ih (x ++ [s]) (by simp [split])⟩
    obtain ⟨s', hs', same⟩ := List.mem_map.1 again
    obtain ⟨y₁, y₂, rfl⟩ := List.append_of_mem hs'
    have further : p = (x ++ s :: y₁) ++ s' :: y₂ := by simp [split]
    have lengths := congrArg List.length
      (hdocs.agree (split ▸ hp : x ++ s :: (y₁ ++ s' :: y₂) ∈ docs) (further ▸ hp) same.symm).1
    simp at lengths

theorem nodup_view (hdocs : AreContent docs) {o : Path Tag} (ho : o ∈ a.view docs) :
    (o.map Step.origin).Nodup := by
  obtain ⟨p, hp, own⟩ := mem_view.1 ho
  have sub := (sublist_ownedPath? own).map Prod.fst
  rw [List.map_map, List.map_map] at sub
  exact (hdocs.nodup hp).sublist sub

theorem split_unique {β γ : Type} {f : β → γ} {l x y x' y' : List β} {b b' : β}
    (once : (l.map f).Nodup) (h : l = x ++ b :: y) (h' : l = x' ++ b' :: y') (same : f b = f b') :
    x = x' ∧ y = y' := by
  subst h
  have mapped := congrArg (List.map f) h'
  have own := once
  have other := once
  rw [h'] at other
  simp only [List.map_append, List.map_cons, List.nodup_append, List.nodup_cons] at own other mapped
  have before : f b' ∉ x.map f := fun hmem =>
    own.2.2 _ hmem _ List.mem_cons_self same.symm
  have after : f b' ∉ y.map f := fun hmem => own.2.1.1 (same ▸ hmem)
  obtain ⟨front, -, -⟩ := (List.append_cons_inj_of_notMem before after).1 mapped
  have lengths : x.length = x'.length := by simpa using congrArg List.length front
  obtain ⟨rfl, rest⟩ := List.append_inj h' lengths
  exact ⟨rfl, (List.cons.inj rest).2⟩

end Address

namespace SplitChain

variable {kind : EntityKind} {paths : List (Path Tag)}

theorem mem_sitesFrom {above x y : Path Tag} {w b : Step Tag} (hw : w.data = .conditional) :
    ⟨w.origin, b.origin, above ++ x ++ [w, b]⟩ ∈ sitesFrom above (x ++ w :: b :: y) := by
  induction x generalizing above with
  | nil => simp [sitesFrom, hw]
  | cons z x ih =>
    have later : ⟨w.origin, b.origin, above ++ z :: x ++ [w, b]⟩ ∈
        sitesFrom (above ++ [z]) (x ++ w :: b :: y) := by
      have split : above ++ z :: x = above ++ [z] ++ x := List.append_cons above z x
      rw [split]
      exact ih
    cases x with
    | nil => exact List.mem_append_right _ later
    | cons z' x => exact List.mem_append_right _ later

theorem exists_of_not_isKept {o : Path Tag} (h : isKept kind paths o = false) :
    ∃ u w b slot, o = u ++ [w, b] ∧ w.data = .conditional ∧ b.data.category = .branch ∧
      (w.origin, slot) ∈ reach kind paths := by
  rw [isKept] at h
  split at h
  · simp at h
  · rename_i n floats
    rw [floating?] at floats
    split at floats
    · rw [emptyBranch?] at floats
      split at floats
      · rename_i b w rest backward
        split at floats
        · rename_i ends
          simp only [Bool.and_eq_true, decide_eq_true_eq] at ends
          obtain rfl := Option.some.inj floats
          obtain ⟨r, hr, own⟩ : ∃ r ∈ anchored kind paths, r.1 = w.origin := by simpa using h
          refine ⟨rest.reverse, w, b, r.2, ?_, ends.1, ends.2, mem_reach.2 (.inl ?_)⟩
          · simpa using congrArg List.reverse backward
          · rwa [← own]
        · simp at floats
      · simp at floats
    · simp at floats

end SplitChain

namespace Address

/-! ### Completion -/

/-- The branch at which the first path ends, if it does, stands not on the second. -/
def EndsOff (o o' : Path Tag) : Prop :=
  ∀ u w b, o = u ++ [w, b] → b.data.category = .branch → ∀ s ∈ sites o', s.branch ≠ b.origin

section Completion

variable {a : Address} {docs : List (Path Tag)} {o q : Path Tag}

theorem pairwise_view (hdocs : AreContent docs) (apart : Path.AreApart docs) :
    (a.view docs).Pairwise (fun o o' => EndsOff o o' ∧ EndsOff o' o) := by
  have off {p p' o o' : Path Tag} (hp : p ∈ docs) (hp' : p' ∈ docs) (strange : ¬ p <+: p')
      (ho : ownedPath? a.kind a.key p = some o) (ho' : ownedPath? a.kind a.key p' = some o') :
      EndsOff o o' := by
    rintro u w b ends branch s hs same
    obtain ⟨x, w', b', y, passes, -, -, number, -⟩ := exists_of_mem_sitesFrom hs
    have plain : b.data.entity? = none := by
      cases hd : b.data <;> simp_all [Tag.category, Tag.entity?]
    exact strange (prefix_of_branch hdocs hp hp' ho ho' ends plain (by simp [passes])
      (number.symm.trans same))
  rw [view, List.pairwise_filterMap]
  refine apart.imp_of_mem ?_
  rintro p p' hp hp' ⟨strange, strange'⟩ o ho o' ho'
  exact ⟨off hp hp' strange ho ho', off hp' hp strange' ho' ho⟩

theorem firstId?_of_filter {t : Step Tag}
    (once : List.filter (fun s => a.isTarget s.data) q = [t]) :
    q.firstId? a.kind a.key = t.extra.id := by
  rw [Path.firstId?_eq_filter]
  exact (congrArg (List.findSome? fun s => s.extra.id) once).trans List.findSome?_singleton

theorem target_view (hdocs : AreContent docs) (ho : o ∈ a.view docs) :
    ∃ t, List.filter (fun s => a.isTarget s.data) o = [t] := by
  obtain ⟨p, hp, own⟩ := mem_view.1 ho
  obtain ⟨t, -, -, once⟩ := (routes_ownedPath? (hdocs.runs p hp) own).target
  exact ⟨t, once⟩

def targetId? (a : Address) (docs : List (Path Tag)) : Option String :=
  (targetStep a.kind a.key (a.view docs)).bind (fun t => t.extra.id)

/-- What stands in for a branch bears the id of the path it is on, or that of the first path; it
bears the former when the branch ends the path. -/
theorem firstId?_standIn (hdocs : AreContent docs) (ho : o ∈ a.view docs) {s : Site}
    (hs : s ∈ sites o) (hq : q ∈ standIns a.kind a.key (a.view docs) s) :
    (q.firstId? a.kind a.key = o.firstId? a.kind a.key ∨
        q.firstId? a.kind a.key = a.targetId? docs) ∧
      (s.path = o → q.firstId? a.kind a.key = o.firstId? a.kind a.key) := by
  obtain ⟨r, hr, rfl⟩ := List.mem_map.1 hq
  obtain ⟨t, -, -, once⟩ := (routes_placeholder hdocs ho hs hr).target
  obtain ⟨t', once'⟩ := target_view hdocs ho
  obtain ⟨ht, target⟩ := List.mem_filter.1 (once ▸ List.mem_singleton_self t)
  have own (x : Step Tag) (hx : x ∈ o) (h : a.isTarget x.data = true) : x = t' :=
    List.mem_singleton.1 (once' ▸ List.mem_filter.2 ⟨hx, h⟩)
  rw [firstId?_of_filter once, firstId?_of_filter once']
  constructor
  · rcases mem_placeholder ht with above | first | field
    · left
      obtain ⟨x, w, b, y, rfl, -, -, -, path⟩ := exists_of_mem_sitesFrom hs
      rw [own t (by rw [path] at above; simp at above ⊢; tauto) target]
    · right
      rw [targetId?, Option.mem_toList.1 first, Option.bind_some]
    · exfalso
      rcases fieldStep_of_lacking hr with none | ⟨x, g, one, isField, -⟩
      · simp [none] at field
      · rw [one, List.mem_singleton] at field
        simp [field, isField, isTarget, Tag.isEntityOf] at target
  · intro whole
    obtain ⟨ht', target'⟩ := List.mem_filter.1 (once' ▸ List.mem_singleton_self t')
    have kept : t' ∈ placeholder a.kind a.key (targetStep a.kind a.key (a.view docs))
        (r.2.bind (fieldStep a.kind (a.view docs))) s.path := by
      rw [whole, placeholder]
      split <;> split <;> simp [ht']
    have same : t' = t := List.mem_singleton.1 (once ▸ List.mem_filter.2 ⟨kept, target'⟩)
    rw [same]

/-- A path that goes is stood in for where it was, at the branch that ends it. -/
theorem exists_standIn (hdocs : AreContent docs) (apart : Path.AreApart docs)
    {before after : List (Path Tag)} (split : a.view docs = before ++ o :: after) {seen : List Nat}
    (met : ∀ n ∈ seen, ∃ o' ∈ before, ∃ s ∈ sites o', s.branch = n)
    (goes : isKept a.kind (a.view docs) o = false) :
    ∃ s ∈ firsts Site.branch seen (sites o), s.path = o ∧
      ∃ q, q ∈ standIns a.kind a.key (a.view docs) s := by
  have ho : o ∈ a.view docs := by simp [split]
  obtain ⟨u, w, b, slot, ends, wrapper, branch, reached⟩ := exists_of_not_isKept goes
  have alone := pairwise_view (a := a) hdocs apart
  rw [split, List.pairwise_append, List.pairwise_cons] at alone
  obtain ⟨-, ⟨later, -⟩, earlier⟩ := alone
  -- no other path passes through the branch at which this one ends
  have unmet : b.origin ∉ seen := by
    intro hmem
    obtain ⟨o', ho', s, hs, same⟩ := met _ hmem
    exact (earlier o' ho' o List.mem_cons_self).2 u w b ends branch s hs same
  have absent : (b.origin, slot) ∉ present a.kind (a.view docs) := by
    intro hmem
    simp only [present, List.mem_flatMap, List.mem_filter, List.mem_map, Prod.mk.injEq] at hmem
    obtain ⟨o', ⟨ho', kept⟩, s, hs, same, -⟩ := hmem
    rw [split, List.mem_append, List.mem_cons] at ho'
    rcases ho' with ho' | rfl | ho'
    · exact (earlier o' ho' o List.mem_cons_self).2 u w b ends branch s hs same
    · simp [goes] at kept
    · exact (later o' ho').1 u w b ends branch s hs same
  have site : ⟨w.origin, b.origin, o⟩ ∈ sites o := by
    have : ⟨w.origin, b.origin, [] ++ u ++ [w, b]⟩ ∈ sitesFrom [] (u ++ w :: b :: []) :=
      mem_sitesFrom wrapper
    rwa [List.nil_append, ← ends] at this
  obtain ⟨s, hs, same⟩ : ∃ s ∈ firsts Site.branch seen (sites o), s.branch = b.origin :=
    exists_mem_firsts site unmet
  obtain ⟨x, w', b', z, passes, -, number, number', path⟩ :=
    exists_of_mem_sitesFrom (mem_of_mem_firsts hs).1
  have passes' : o = (x ++ [w']) ++ b' :: z := by simp [passes]
  have ends' : o = (u ++ [w]) ++ b :: [] := by simp [ends]
  obtain ⟨above, rfl⟩ := split_unique (nodup_view hdocs ho) passes' ends'
    (number'.symm.trans same)
  obtain ⟨-, wrappers⟩ := List.append_inj' above rfl
  obtain rfl : w' = w := by simpa using wrappers
  have lacks : (w'.origin, slot) ∈ lacking a.kind (a.view docs) s := by
    simp [lacking, reached, number, same, absent]
  exact ⟨s, hs, by simp [path, passes], _, List.mem_map_of_mem lacks⟩

/-- Where a path is laid in, the first id that is found is its own, as long as the first path does
not bear another one. -/
theorem findSome?_standing (hdocs : AreContent docs) (apart : Path.AreApart docs)
    {before after : List (Path Tag)} (split : a.view docs = before ++ o :: after) {seen : List Nat}
    (met : ∀ n ∈ seen, ∃ o' ∈ before, ∃ s ∈ sites o', s.branch = n)
    (first : a.targetId? docs = none ∨ a.targetId? docs = o.firstId? a.kind a.key) :
    ((if isKept a.kind (a.view docs) o then [o] else []) ++
        (firsts Site.branch seen (sites o)).flatMap (standIns a.kind a.key (a.view docs))).findSome?
      (Path.firstId? a.kind a.key) = o.firstId? a.kind a.key := by
  have ho : o ∈ a.view docs := by simp [split]
  apply findSome?_eq_of_forall
  · intro q hq
    rcases List.mem_append.1 hq with kept | stands
    · left
      split at kept
      · rw [List.mem_singleton.1 kept]
      · simp at kept
    · obtain ⟨s, hs, hq⟩ := List.mem_flatMap.1 stands
      rcases (firstId?_standIn hdocs ho (mem_of_mem_firsts hs).1 hq).1 with own | other
      · exact .inl own
      · rcases first with none | same
        · exact .inr (other.trans none)
        · exact .inl (other.trans same)
  · cases stays : isKept a.kind (a.view docs) o with
    | true => exact ⟨o, by simp, rfl⟩
    | false =>
      obtain ⟨s, hs, whole, q, hq⟩ := exists_standIn hdocs apart split met stays
      exact ⟨q, List.mem_append_right _ (List.mem_flatMap.2 ⟨s, hs, hq⟩),
        (firstId?_standIn hdocs ho (mem_of_mem_firsts hs).1 hq).2 whole⟩

theorem findSome?_laid (hdocs : AreContent docs) (apart : Path.AreApart docs)
    (first : a.targetId? docs = none) {before ps : List (Path Tag)}
    (split : a.view docs = before ++ ps) {seen : List Nat}
    (met : ∀ n ∈ seen, ∃ o' ∈ before, ∃ s ∈ sites o', s.branch = n) :
    (laid a.kind a.key (a.view docs) seen ps).findSome? (Path.firstId? a.kind a.key) =
      ps.findSome? (Path.firstId? a.kind a.key) := by
  induction ps generalizing before seen with
  | nil => rfl
  | cons o ps ih =>
    have met' : ∀ n ∈ ((sites o).map Site.branch).reverse ++ seen,
        ∃ o' ∈ before ++ [o], ∃ s ∈ sites o', s.branch = n := by
      intro n hn
      rcases List.mem_append.1 hn with own | earlier
      · obtain ⟨s, hs, same⟩ := List.mem_map.1 (List.mem_reverse.1 own)
        exact ⟨o, by simp, s, hs, same⟩
      · obtain ⟨o', ho', found⟩ := met n earlier
        exact ⟨o', by simp [ho'], found⟩
    rw [laid, List.findSome?_append, findSome?_standing hdocs apart split met (.inl first),
      ih (by simp [split]) met', ← List.findSome?_singleton (f := Path.firstId? a.kind a.key),
      ← List.findSome?_append, List.singleton_append]

/-- Completion keeps the first id that the entity bears. -/
theorem findSome?_complete (hdocs : AreContent docs) (apart : Path.AreApart docs) :
    (complete a.kind a.key (a.view docs)).findSome? (Path.firstId? a.kind a.key) =
      (a.view docs).findSome? (Path.firstId? a.kind a.key) := by
  rw [complete_eq_laid]
  cases first : a.targetId? docs with
  | none => exact findSome?_laid hdocs apart first (List.nil_append _).symm (by simp)
  | some id =>
    cases hview : a.view docs with
    | nil => simp [targetId?, hview, targetStep] at first
    | cons o ps =>
      have own : o.firstId? a.kind a.key = some id := by
        obtain ⟨t, once⟩ := target_view hdocs (o := o) (a := a) (by simp [hview])
        have step : targetStep a.kind a.key (a.view docs) = some t := by
          have found : o.find? (fun s => s.data.isEntityOf a.kind a.key) = some t := by
            rw [← List.head?_filter]
            exact congrArg List.head? once
          rw [targetStep, hview, List.flatten_cons, List.find?_append, found, Option.some_or]
        rw [firstId?_of_filter once, ← first, targetId?, step, Option.bind_some]
      have stands := findSome?_standing hdocs apart (hview.trans (List.nil_append _).symm)
        (List.forall_mem_nil _) (.inr (first.trans own.symm))
      rw [hview] at stands
      rw [laid, List.findSome?_append, stands, List.findSome?_cons, own, Option.some_or]

open Growth in
theorem id_grown (hdocs : AreContent docs) (apart : Path.AreApart docs) {grown : Forest Tag}
    (h : Standardize.growComponent a.kind a.key (a.view docs) = .ok grown) {root : Node Tag}
    (found : (List.filter (fun n : Node Tag => n.data.isEntityOf a.kind a.key) grown).head? =
      some root) :
    root.extra.id = (a.view docs).findSome? (Path.firstId? a.kind a.key) := by
  have routes : ∀ p ∈ complete a.kind a.key (a.view docs), a.Routes p :=
    fun p hp => routes_of_mem_complete hdocs hp
  obtain rfl := growComponent_eq h
  by_cases none : complete a.kind a.key (a.view docs) = []
  · simp [none, insertAll, Growth.forest, Forest.map] at found
  · obtain ⟨m, tree, entity, -, id⟩ : ∃ m : Node (Tag × Nat),
        insertAll (regrowth childOrder) _ [] = [m] ∧ _ ∧ _ ∧ _ :=
      insertAll_starts (starts_of_routes routes) (by simpa)
    rw [tree, Growth.forest_node, List.filter_singleton, entity] at found
    obtain rfl := Option.some.inj found
    rw [← findSome?_complete hdocs apart]
    refine id.trans (List.findSome?_map.trans (findSome?_congr fun p hp => ?_))
    obtain ⟨t, r, order, once⟩ := (routes p hp).target
    rw [Function.comp_apply, order, firstId?_of_filter once]
    rfl

end Completion

end Address

end WorldMarkup
