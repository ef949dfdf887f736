import Mathlib.Algebra.Order.Group.Multiset
import Mathlib.Data.List.Induction
import Mathlib.Tactic.Abel
import WorldMarkup.Proofs.Tree.Growth
import WorldMarkup.Tree.Table

/-!
A growing forest and the table that holds it. Every node stands in a row of its own, above the
rows of its children, and laying a path into the table lays it into the forest. Main statements:
the table puts together the forest that grows by recursion, and takes every tree out of its row
exactly once.
-/

set_option autoImplicit false
set_option relaxedAutoImplicit false

namespace WorldMarkup

variable {α κ : Type}

namespace Growth

section Laying

variable [DecidableEq κ] {r : Rules α κ} {s : Step α}

/-- One path laid into a forest, level by level. -/
inductive Lays (r : Rules α κ) : Path α → Growth α → Growth α → Prop
  | done (g : Growth α) : Lays r [] g g
  /-- The step joins a sibling: the last of its own number, or the nearest that counts as the
  same, none behind which stops the search. -/
  | join {s : Step α} {rest : Path α} {before after children : Growth α} {n : Node (α × Nat)}
      (meets : Meets r s (after.reverse.map step) (step n) (before.reverse.map step))
      (inner : Lays r rest n.children children) :
      Lays r (s :: rest) (before ++ n :: after)
        (before ++ ⟨((r.combine (step n) s).1, n.data.2), (r.combine (step n) s).2, children⟩ ::
          after)
  /-- The step stands as a new sibling: none has its number, each that counts as the same is
  behind one that stops the search, and those that rank above the step follow it. -/
  | stand {s : Step α} {rest : Path α} {before after children : Growth α}
      (strange : ∀ n ∈ before ++ after, n.data.2 ≠ s.origin)
      (stopped : ∀ later y earlier, (before ++ after).reverse.map step = later ++ y :: earlier →
        joins r s y = true →
          ∃ z ∈ later, r.independent (r.category z.data) (r.category s.data) = false)
      (behind : r.outranked s.data (before.reverse.map (fun n => n.data.1)) = false)
      (above : ∀ n ∈ after, r.ranksBelow s.data n.data.1 = true)
      (inner : Lays r rest [] children) :
      Lays r (s :: rest) (before ++ after)
        (before ++ ⟨(s.data, s.origin), s.extra, children⟩ :: after)

/-- Where no sibling is matched, something stops the search before each that counts as the
same. -/
theorem exists_stop_of_match? {later : List (Step α)} {y : Step α} {earlier : List (Step α)}
    (h : match? r s (later ++ y :: earlier) = none) (joined : joins r s y = true) :
    ∃ z ∈ later, r.independent (r.category z.data) (r.category s.data) = false := by
  induction later with
  | nil => simp [match?_cons, joined] at h
  | cons z later ih =>
    rw [List.cons_append, match?_cons] at h
    split at h
    · exact absurd h (by simp)
    · rename_i notJoined
      split at h
      · obtain ⟨x, hx, stop⟩ := ih (Option.map_eq_none_iff.1 h)
        exact ⟨x, List.mem_cons_of_mem z hx, stop⟩
      · rename_i stop
        exact ⟨z, by simp, by simpa [passes, notJoined] using stop⟩

theorem lays_insert (r : Rules α κ) (p : Path α) (g : Growth α) : Lays r p g (insert r p g) := by
  induction p generalizing g with
  | nil => exact .done g
  | cons s rest ih =>
    rcases meets_or_isNew r s g with ⟨before, n, after, rfl, meets⟩ | new
    · rw [insert_of_meets rest meets]
      exact .join meets (ih n.children)
    · obtain ⟨before, after, rfl, grown, behind, above⟩ := exists_of_isNew new
      rw [grown]
      refine .stand ?_ ?_ behind above (ih [])
      · intro n hn
        exact new.strange (step n) (List.mem_map_of_mem (List.mem_reverse.2 hn))
      · intro later y earlier split joined
        have unmatched := new.unmatched
        rw [split] at unmatched
        exact exists_stop_of_match? unmatched joined

end Laying

end Growth

namespace Table

/-! ### The rows of a forest -/

/-- A growing forest each of whose nodes knows its row. -/
abbrev Chart (α : Type) : Type := Forest ((α × Nat) × Nat)

namespace Chart

def tops (c : Chart α) : List Nat := List.map (fun n => n.data.2) c

def places (c : Chart α) : List Nat := (Forest.preorder c).map (fun x => x.1.2)

def growth (c : Chart α) : Growth α := Forest.map Prod.fst c

variable {d : α} {origin i : Nat} {e : Extra} {cs c c' : Chart α}

@[simp] theorem tops_append : tops (c ++ c') = tops c ++ tops c' := by
  simp [tops]

@[simp] theorem tops_cons : tops (⟨((d, origin), i), e, cs⟩ :: c) = i :: tops c := rfl

@[simp] theorem places_append : places (c ++ c') = places c ++ places c' := by
  simp [places, Forest.preorder_append]

@[simp] theorem places_cons :
    places (⟨((d, origin), i), e, cs⟩ :: c) = i :: (places cs ++ places c) := by
  simp [places, Forest.preorder_cons]

@[simp] theorem places_nil : places ([] : Chart α) = [] := rfl

@[simp] theorem growth_append : growth (c ++ c') = growth c ++ growth c' := by
  simp [growth, Forest.map_eq]

@[simp] theorem growth_cons : growth (⟨((d, origin), i), e, cs⟩ :: c) =
    ⟨(d, origin), e, growth cs⟩ :: growth c := rfl

@[simp] theorem length_growth (c : Chart α) : (growth c).length = c.length := by
  simp [growth, Forest.map_eq]

theorem tops_subset (c : Chart α) : tops c ⊆ places c := by
  induction c with
  | nil => simp [tops]
  | cons n c ih =>
    obtain ⟨⟨⟨d, origin⟩, i⟩, e, cs⟩ := n
    rw [tops_cons, places_cons]
    exact List.cons_subset_cons i (fun j hj => List.mem_append_right _ (ih hj))

end Chart

open Chart

/-- The rows hold the forest of the chart: each node has the row it says, which lists the rows of
its children, and all that stands below it has later rows. -/
inductive Holds (rows : List (Row α)) : Chart α → Prop
  | nil : Holds rows []
  | cons {d : α} {origin i : Nat} {e : Extra} {cs c : Chart α}
      (row : rows[i]? = some ⟨⟨d, e, origin⟩, tops cs⟩) (lower : ∀ j ∈ places cs, i < j)
      (inner : Holds rows cs) (more : Holds rows c) :
      Holds rows (⟨((d, origin), i), e, cs⟩ :: c)

namespace Holds

variable {rows rows' : List (Row α)} {c c' : Chart α}

theorem append (h : Holds rows c) (h' : Holds rows c') : Holds rows (c ++ c') := by
  induction h with
  | nil => exact h'
  | cons row lower inner _ _ more => exact .cons row lower inner more

theorem of_append (h : Holds rows (c ++ c')) : Holds rows c ∧ Holds rows c' := by
  induction c with
  | nil => exact ⟨.nil, h⟩
  | cons n c ih =>
    cases h with
    | cons row lower inner more => exact ⟨.cons row lower inner (ih more).1, (ih more).2⟩

theorem congr (h : Holds rows c) (same : ∀ j ∈ places c, rows'[j]? = rows[j]?) :
    Holds rows' c := by
  induction h with
  | nil => exact .nil
  | cons row lower _ _ inner more =>
    simp only [places_cons, List.forall_mem_cons, List.forall_mem_append] at same
    exact .cons (same.1.trans row) lower (inner same.2.1) (more same.2.2)

theorem lt_of_mem (h : Holds rows c) {j : Nat} (hj : j ∈ places c) : j < rows.length := by
  induction h with
  | nil => simp at hj
  | cons row _ _ _ inner more =>
    rw [places_cons, List.mem_cons, List.mem_append] at hj
    rcases hj with rfl | hj | hj
    · exact (List.getElem?_eq_some_iff.1 row).1
    · exact inner hj
    · exact more hj

theorem later (h : Holds rows c) {i j : Nat} {x : Row α} (hi : i ∈ places c)
    (row : rows[i]? = some x) (hj : j ∈ x.children) : i < j ∧ j ∈ places c := by
  induction h with
  | nil => simp at hi
  | cons row' lower _ _ inner more =>
    simp only [places_cons, List.mem_cons, List.mem_append] at hi ⊢
    rcases hi with rfl | hi | hi
    · obtain rfl := Option.some.inj (row'.symm.trans row)
      have below := tops_subset _ hj
      exact ⟨lower j below, .inr (.inl below)⟩
    · exact (inner hi).imp_right (fun below => .inr (.inl below))
    · exact (more hi).imp_right (fun beside => .inr (.inr beside))

theorem steps_tops (h : Holds rows c) :
    (tops c).reverse.filterMap (fun i => (rows[i]?).map Row.step) =
      (growth c).reverse.map Growth.step := by
  rw [List.filterMap_reverse, List.map_reverse]
  refine congrArg List.reverse ?_
  induction h with
  | nil => rfl
  | cons row _ _ _ _ more =>
    rw [tops_cons, growth_cons, List.filterMap_cons, row]
    simpa [Growth.step] using more

theorem perm_places (h : Holds rows c) :
    (places c).Perm (tops c ++
      (places c).flatMap (fun i => ((rows[i]?).map Row.children).getD [])) := by
  induction h with
  | nil => exact List.Perm.refl _
  | cons row _ _ _ inner more =>
    simp only [tops_cons, places_cons, List.flatMap_cons, List.flatMap_append, row,
      Option.map_some, Option.getD_some]
    rw [← Multiset.coe_eq_coe] at inner more ⊢
    simp only [← Multiset.coe_add, ← Multiset.cons_coe, ← Multiset.singleton_add] at inner more ⊢
    conv_lhs => rw [inner, more]
    abel

end Holds

/-! ### Laying in a path -/

section Laying

variable {r : Rules α κ} {t t' : Table α} {above : Option Nat} {c c' : Chart α}

theorem setBelow_below (t : Table α) (above : Option Nat) :
    t.setBelow (t.below above) above = t := by
  cases above with
  | none => rfl
  | some i =>
    have same (l : List (Row α)) :
        l.modify i (fun x => { x with children := ((l[i]?).map Row.children).getD [] }) = l := by
      refine List.ext_getElem? (fun j => ?_)
      rw [List.getElem?_modify]
      by_cases hij : i = j
      · subst hij
        cases l[i]? <;> simp
      · simp [hij]
    simp [setBelow, below, same]

theorem rows_setBelow_of_ne (t : Table α) (children : List Nat) {j : Nat} (h : above ≠ some j) :
    (t.setBelow children above).rows[j]? = t.rows[j]? := by
  cases above with
  | none => rfl
  | some i =>
    have hij : i ≠ j := fun eq => h (congrArg some eq)
    simp [setBelow, hij]

/-- What a change below a row leaves of the table: the rows of the chart become those of another,
new rows are added, and no other row changes but the one above. -/
structure Turns (t t' : Table α) (above : Option Nat) (c c' : Chart α) : Prop where
  holds : Holds t'.rows c'
  grows : t.rows.length ≤ t'.rows.length
  places : (places c').Perm
    (places c ++ List.range' t.rows.length (t'.rows.length - t.rows.length))
  roots : t'.roots = (t.setBelow (tops c') above).roots
  others : ∀ j < t.rows.length, j ∉ Chart.places c →
    t'.rows[j]? = (t.setBelow (tops c') above).rows[j]?

namespace Turns

variable {s : Step α} {d : α} {origin i : Nat} {e : Extra} {a b cs cs' : Chart α}

/-- A row that a step joins keeps its place, and what turns below it turns below the table. -/
theorem join (holds : Holds t.rows (a ++ ⟨((d, origin), i), e, cs⟩ :: b))
    (once : (Chart.places (a ++ ⟨((d, origin), i), e, cs⟩ :: b)).Nodup)
    (here : t.below above = tops (a ++ ⟨((d, origin), i), e, cs⟩ :: b))
    (inner : Turns (t.join r i s) t' (some i) cs cs') :
    Turns t t' above (a ++ ⟨((d, origin), i), e, cs⟩ :: b)
      (a ++ ⟨(((r.combine ⟨d, e, origin⟩ s).1, origin), i), (r.combine ⟨d, e, origin⟩ s).2, cs'⟩ ::
        b) := by
  obtain ⟨before, node⟩ := holds.of_append
  have lt : ∀ j ∈ Chart.places (a ++ ⟨((d, origin), i), e, cs⟩ :: b), j < t.rows.length :=
    fun j hj => holds.lt_of_mem hj
  have untouched : t.setBelow (tops (a ++ ⟨(((r.combine ⟨d, e, origin⟩ s).1, origin), i),
      (r.combine ⟨d, e, origin⟩ s).2, cs'⟩ :: b)) above = t := by
    have names : tops (a ++ ⟨(((r.combine ⟨d, e, origin⟩ s).1, origin), i),
        (r.combine ⟨d, e, origin⟩ s).2, cs'⟩ :: b) =
          tops (a ++ ⟨((d, origin), i), e, cs⟩ :: b) := by simp
    rw [names, ← here, setBelow_below]
  have grows : t.rows.length ≤ t'.rows.length := by simpa [Table.join] using inner.grows
  simp only [places_append, places_cons, List.nodup_append', List.nodup_cons, List.mem_append,
    not_or, List.disjoint_cons_right, List.disjoint_append_right] at once
  obtain ⟨-, ⟨⟨ncs, nb⟩, -, -, disjoint⟩, na, nacs, -⟩ := once
  -- Only the row that is joined and the rows below it change.
  have same : ∀ j < t.rows.length, j ≠ i → j ∉ Chart.places cs → t'.rows[j]? = t.rows[j]? := by
    intro j hj hij hcs
    rw [inner.others j (by simpa [Table.join] using hj) hcs,
      rows_setBelow_of_ne _ _ (by simpa using Ne.symm hij)]
    simp [Table.join, Ne.symm hij]
  cases node with
  | cons row lower _ more =>
    have joined : t'.rows[i]? =
        some ⟨⟨(r.combine ⟨d, e, origin⟩ s).1, (r.combine ⟨d, e, origin⟩ s).2, origin⟩,
          tops cs'⟩ := by
      have hi : i < (t.join r i s).rows.length := by
        simpa [Table.join] using (List.getElem?_eq_some_iff.1 row).1
      rw [inner.others i hi ncs]
      simp [setBelow, Table.join, row]
    have added : ∀ j ∈ Chart.places cs', i < j := by
      intro j hj
      rcases List.mem_append.1 (inner.places.mem_iff.1 hj) with hj | hj
      · exact lower j hj
      · have := (List.mem_range'_1.1 hj).1
        have : i < t.rows.length := (List.getElem?_eq_some_iff.1 row).1
        simp only [Table.join, List.length_modify] at *
        omega
    refine ⟨(before.congr ?_).append (.cons joined added inner.holds (more.congr ?_)), grows, ?_,
      ?_, ?_⟩
    · intro j hj
      exact same j (lt j (by simp [hj])) (fun eq => na (eq ▸ hj)) (nacs hj)
    · intro j hj
      exact same j (lt j (by simp [hj])) (fun eq => nb (eq ▸ hj)) (fun h => disjoint h hj)
    · have perm := inner.places
      simp only [Table.join, List.length_modify] at perm
      simp only [places_append, places_cons]
      rw [← Multiset.coe_eq_coe] at perm ⊢
      simp only [← Multiset.coe_add, ← Multiset.cons_coe, ← Multiset.singleton_add] at perm ⊢
      rw [perm]
      abel
    · rw [inner.roots, untouched]
      rfl
    · intro j hj fresh
      simp only [places_append, places_cons, List.mem_append, List.mem_cons, not_or] at fresh
      rw [untouched]
      exact same j hj fresh.2.1 fresh.2.2.1

/-- A new row takes its place among the others, and what turns below it turns below the table. -/
theorem stand (holds : Holds t.rows (a ++ b))
    (outside : ∀ i ∈ above, i < t.rows.length ∧ i ∉ Chart.places (a ++ b))
    (inner : Turns (setBelow { t with rows := t.rows ++ [⟨s, []⟩] }
      (tops a ++ t.rows.length :: tops b) above) t' (some t.rows.length) [] cs') :
    Turns t t' above (a ++ b)
      (a ++ ⟨((s.data, s.origin), t.rows.length), s.extra, cs'⟩ :: b) := by
  have lt : ∀ j ∈ Chart.places (a ++ b), j < t.rows.length := fun j hj => holds.lt_of_mem hj
  obtain ⟨before, behind⟩ := holds.of_append
  have length : ∀ children, (setBelow { t with rows := t.rows ++ [⟨s, []⟩] } children
      above).rows.length = t.rows.length + 1 := by
    intro children
    cases above <;> simp [setBelow]
  have grows : t.rows.length + 1 ≤ t'.rows.length := by
    rw [← length]
    exact inner.grows
  have same : ∀ j < t.rows.length, t'.rows[j]? =
      (t.setBelow (tops a ++ t.rows.length :: tops b) above).rows[j]? := by
    intro j hj
    rw [inner.others j (by rw [length]; omega) (by simp),
      rows_setBelow_of_ne _ _ (by simpa using (Nat.ne_of_lt hj).symm)]
    cases above <;> simp [setBelow, List.getElem?_append_left hj, List.getElem?_modify]
  have kept : ∀ j ∈ Chart.places (a ++ b), t'.rows[j]? = t.rows[j]? := by
    intro j hj
    rw [same j (lt j hj), rows_setBelow_of_ne]
    exact fun eq => (outside j (by simp [eq])).2 hj
  have new : t'.rows[t.rows.length]? = some ⟨s, tops cs'⟩ := by
    rw [inner.others _ (by rw [length]; omega) (by simp)]
    have fresh : above ≠ some t.rows.length :=
      fun eq => Nat.lt_irrefl _ (outside t.rows.length (by simp [eq])).1
    have row := rows_setBelow_of_ne { t with rows := t.rows ++ [⟨s, []⟩] }
      (tops a ++ t.rows.length :: tops b) fresh
    rw [setBelow]
    simp [row]
  have added : ∀ j ∈ Chart.places cs', t.rows.length < j := by
    intro j hj
    have more := inner.places.mem_iff.1 hj
    simp only [places_nil, List.nil_append, List.mem_range'_1, length] at more
    omega
  have names : tops (a ++ ⟨((s.data, s.origin), t.rows.length), s.extra, cs'⟩ :: b) =
      tops a ++ t.rows.length :: tops b := by simp
  refine ⟨(before.congr ?_).append (.cons new added inner.holds (behind.congr ?_)),
    by omega, ?_, ?_, ?_⟩
  · exact fun j hj => kept j (by simp [hj])
  · exact fun j hj => kept j (by simp [hj])
  · have perm := inner.places
    simp only [length, places_nil, List.nil_append] at perm
    have split : List.range' t.rows.length (t'.rows.length - t.rows.length) =
        t.rows.length :: List.range' (t.rows.length + 1)
          (t'.rows.length - (t.rows.length + 1)) := by
      obtain ⟨k, hk⟩ := Nat.exists_eq_add_of_le grows
      have here : t'.rows.length - t.rows.length = k + 1 := by omega
      have rest : t'.rows.length - (t.rows.length + 1) = k := by omega
      rw [here, rest, List.range'_succ]
    simp only [places_append, places_cons, split]
    rw [← Multiset.coe_eq_coe] at perm ⊢
    simp only [← Multiset.coe_add, ← Multiset.cons_coe, ← Multiset.singleton_add] at perm ⊢
    rw [perm]
    abel
  · rw [inner.roots, names]
    cases above <;> rfl
  · intro j hj _
    rw [same j hj, names]

end Turns

variable [DecidableEq κ]

section Partners

variable {s : Step α} {d : α} {origin i : Nat} {e : Extra} {a b cs : Chart α}

theorem partner?_of_meets (holds : Holds t.rows (a ++ ⟨((d, origin), i), e, cs⟩ :: b))
    (meets : Growth.Meets r s ((growth b).reverse.map Growth.step) ⟨d, e, origin⟩
      ((growth a).reverse.map Growth.step)) :
    t.partner? r (tops (a ++ ⟨((d, origin), i), e, cs⟩ :: b)) s = some i := by
  have steps : (growth (a ++ ⟨((d, origin), i), e, cs⟩ :: b)).reverse.map Growth.step =
      (growth b).reverse.map Growth.step ++ ⟨d, e, origin⟩ ::
        (growth a).reverse.map Growth.step := by simp [Growth.step]
  have tops' : (tops (a ++ ⟨((d, origin), i), e, cs⟩ :: b)).reverse =
      (tops b).reverse ++ i :: (tops a).reverse := by simp
  have length : (tops b).reverse.length = b.length := by simp [tops]
  simp only [partner?]
  rw [holds.steps_tops, steps, Growth.partner?_of_meets meets, tops']
  simp [← length]

theorem partner?_of_isNew (holds : Holds t.rows c)
    (new : Growth.IsNew r s ((growth c).reverse.map Growth.step)) :
    t.partner? r (tops c) s = none := by
  simp only [partner?]
  rw [holds.steps_tops, Growth.partner?_eq_none.2 new]
  rfl

theorem exists_append_of_overtaken (r : Rules α κ) (s : Step α) (c : Chart α) :
    ∃ a b, c = a ++ b ∧
      Growth.overtaken r s ((growth (a ++ b)).reverse.map Growth.step) = b.length := by
  let k := Growth.overtaken r s ((growth c).reverse.map Growth.step)
  have bound : k ≤ c.length := by
    have := List.takeWhile_sublist (l := (growth c).reverse.map Growth.step)
      (fun x => r.ranksBelow s.data x.data)
    simpa [k, Growth.overtaken_eq] using this.length_le
  refine ⟨c.take (c.length - k), c.drop (c.length - k), (List.take_append_drop _ c).symm, ?_⟩
  rw [List.take_append_drop, List.length_drop, Nat.sub_sub_self bound]

theorem add_eq (holds : Holds t.rows (a ++ b)) (here : t.below above = tops (a ++ b))
    (passed : Growth.overtaken r s ((growth (a ++ b)).reverse.map Growth.step) = b.length) :
    t.add r above s = setBelow { t with rows := t.rows ++ [⟨s, []⟩] }
      (tops a ++ t.rows.length :: tops b) above := by
  have place : (tops (a ++ b)).length - b.length = (tops a).length := by simp [tops]
  simp only [add, here, holds.steps_tops]
  rw [passed, place, tops_append, Growth.insertIdx_length]

end Partners

/-- Laying a path into the table turns it as laying the path into the forest does. -/
theorem turns_insert (r : Rules α κ) (p : Path α) {t : Table α} {above : Option Nat}
    {c : Chart α} (holds : Holds t.rows c) (once : (places c).Nodup)
    (here : t.below above = tops c)
    (outside : ∀ i ∈ above, i < t.rows.length ∧ i ∉ places c) :
    ∃ c', Turns t (t.insert r above p) above c c' ∧
      growth c' = Growth.insert r p (growth c) := by
  induction p generalizing t above c with
  | nil =>
    refine ⟨c, ⟨holds, Nat.le_refl _, by simp [insert], ?_, ?_⟩, rfl⟩
    · rw [← here, setBelow_below, insert]
    · intro j _ _
      rw [← here, setBelow_below, insert]
  | cons s rest ih =>
    rcases Growth.meets_or_isNew r s (growth c) with ⟨before, n, after, split, meets⟩ | new
    · obtain ⟨a, rest', rfl, rfl, hrest⟩ := List.map_eq_append_iff.1
        ((Forest.map_eq _ _).symm.trans split)
      obtain ⟨⟨⟨⟨d, origin⟩, i⟩, e, cs⟩, b, rfl, rfl, rfl⟩ := List.map_eq_cons_iff.1 hrest
      rw [← Forest.map_eq, ← Forest.map_eq] at meets
      have found := partner?_of_meets holds meets
      have inside := once
      simp only [places_append, places_cons, List.nodup_append', List.nodup_cons,
        List.mem_append, not_or] at inside
      obtain ⟨-, ⟨⟨fresh, -⟩, below, -⟩, -⟩ := inside
      cases holds.of_append.2 with
      | cons row _ inner _ =>
        have kept : Holds (t.join r i s).rows cs := inner.congr (fun j hj => by
          have hij : i ≠ j := fun eq => fresh (eq ▸ hj)
          simp [join, hij])
        have listed : (t.join r i s).below (some i) = tops cs := by simp [Table.below, join, row]
        have room : ∀ k ∈ some i, k < (t.join r i s).rows.length ∧ k ∉ places cs := by
          simp only [Option.mem_def, Option.some.injEq, forall_eq', join, List.length_modify]
          exact ⟨(List.getElem?_eq_some_iff.1 row).1, fresh⟩
        obtain ⟨cs', turns, grown⟩ := ih kept below listed room
        have laid := Growth.insert_of_meets rest meets
        rw [insert, here, found]
        refine ⟨_, turns.join holds once here, ?_⟩
        rw [growth_append, growth_cons, grown, growth_append, growth_cons]
        exact laid.symm
    · obtain ⟨a, b, rfl, passed⟩ := exists_append_of_overtaken r s c
      have put := add_eq holds here passed
      have fresh : above ≠ some t.rows.length :=
        fun eq => Nat.lt_irrefl _ (outside t.rows.length (by simp [eq])).1
      have bare : (t.add r above s).below (some t.rows.length) = tops ([] : Chart α) := by
        rw [put, Table.below, rows_setBelow_of_ne _ _ fresh]
        simp [tops]
      have room : ∀ k ∈ some t.rows.length,
          k < (t.add r above s).rows.length ∧ k ∉ places ([] : Chart α) := by
        rw [put]
        cases above <;> simp [setBelow]
      obtain ⟨cs', turns, grown⟩ := ih .nil List.nodup_nil bare room
      have unfound := partner?_of_isNew holds new
      rw [growth_append] at new passed
      rw [insert, here, unfound, growth_append,
        Growth.insert_of_isNew rest new (passed.trans (length_growth b).symm), put]
      rw [put] at turns
      refine ⟨_, turns.stand holds outside, ?_⟩
      rw [growth_append, growth_cons, grown]
      rfl

/-- The rows of a table hold the forest of the chart, each row one node. -/
structure IsCharted (t : Table α) (c : Chart α) : Prop where
  holds : Holds t.rows c
  roots : t.roots = tops c
  once : (places c).Perm (List.range t.rows.length)

theorem IsCharted.insert (r : Rules α κ) {t : Table α} {c : Chart α} (charted : t.IsCharted c)
    (p : Path α) : ∃ c', (t.insert r none p).IsCharted c' ∧
      growth c' = Growth.insert r p (growth c) := by
  obtain ⟨c', turns, grown⟩ := turns_insert r p charted.holds
    (charted.once.nodup_iff.2 List.nodup_range) (show t.below none = tops c from charted.roots)
    (by simp)
  refine ⟨c', ⟨turns.holds, turns.roots, ?_⟩, grown⟩
  calc (places c')
    _ |>.Perm (places c ++ _) := turns.places
    _ |>.Perm (List.range t.rows.length ++ _) := charted.once.append_right _
    _ = List.range _ := by
      have split := List.range'_append_1 (s := 0) (m := t.rows.length)
        (n := (t.insert r none p).rows.length - t.rows.length)
      rw [Nat.zero_add, Nat.add_sub_cancel' turns.grows] at split
      rw [List.range_eq_range', split, List.range_eq_range']

/-- Laying paths into the table lays them into the forest that it holds. -/
theorem exists_isCharted_ofPaths (r : Rules α κ) (paths : List (Path α)) :
    ∃ c, (ofPaths r paths).IsCharted c ∧ growth c = Growth.ofPaths r paths := by
  induction paths using List.reverseRecOn with
  | nil => exact ⟨[], ⟨.nil, rfl, List.Perm.refl _⟩, rfl⟩
  | append_singleton paths p ih =>
    obtain ⟨c, charted, grown⟩ := ih
    obtain ⟨c', charted', grown'⟩ := charted.insert r p
    refine ⟨c', ?_, ?_⟩
    · simpa [ofPaths] using charted'
    · rw [grown', grown]
      simp [Growth.ofPaths]

end Laying

/-! ### Putting the trees together -/

/-- The trees that stand in rows. -/
inductive Trees (rows : List (Row α)) : List Nat → Forest α → Prop
  | nil : Trees rows [] []
  | cons {i : Nat} {x : Row α} {is : List Nat} {cs t : Forest α} (row : rows[i]? = some x)
      (inner : Trees rows x.children cs) (more : Trees rows is t) :
      Trees rows (i :: is) (⟨x.step.data, x.step.extra, cs⟩ :: t)

variable {rows : List (Row α)} {is : List Nat} {t u : Forest α}

theorem Trees.unique (h : Trees rows is t) (h' : Trees rows is u) : t = u := by
  induction h generalizing u with
  | nil => cases h'; rfl
  | cons row _ _ inner more =>
    cases h' with
    | cons row' inner' more' =>
      obtain rfl := Option.some.inj (row.symm.trans row')
      rw [inner inner', more more']

theorem Holds.trees {c : Chart α} (h : Holds rows c) :
    Trees rows (tops c) (Growth.forest (growth c)) := by
  induction h with
  | nil => exact .nil
  | cons row _ _ _ inner more => exact .cons row inner more

theorem takeOut_spec {built : List (Option (Node α))} (length : built.length = rows.length)
    (once : is.Nodup)
    (stands : ∀ i ∈ is, ∃ n, built[i]? = some (some n) ∧ Trees rows [i] [n]) :
    Trees rows is (takeOut built is).1 ∧ (takeOut built is).2.length = rows.length ∧
      ∀ j < rows.length, (takeOut built is).2[j]? = if j ∈ is then some none else built[j]? := by
  induction is generalizing built with
  | nil => exact ⟨.nil, length, by simp [takeOut]⟩
  | cons i is ih =>
    obtain ⟨fresh, once⟩ := List.nodup_cons.1 once
    obtain ⟨⟨n, found, tree⟩, stands⟩ := List.forall_mem_cons.1 stands
    obtain ⟨trees, length', left⟩ := @ih (built.set i none) (by simpa using length) once
      (fun j hj => by
        have hij : i ≠ j := fun eq => fresh (eq ▸ hj)
        simpa [hij] using stands j hj)
    refine ⟨?_, length', ?_⟩
    · simp only [takeOut, found, Option.join_some, Option.toList_some, List.singleton_append]
      cases tree with
      | cons row inner _ => exact .cons row inner trees
    · intro j hj
      have lt : i < built.length := (List.getElem?_eq_some_iff.1 found).1
      simp only [takeOut, left j hj, List.mem_cons]
      by_cases hij : i = j
      · subst hij
        simp [fresh, lt]
      · simp [hij, Ne.symm hij]

/-- What stands in the rows when the last ones are put together: their trees, but for those that
a row among them has taken. -/
structure IsBuilt (rows done : List (Row α)) (built : List (Option (Node α))) : Prop where
  length : built.length = rows.length
  stands : ∀ j < rows.length, rows.length ≤ j + done.length → j ∉ done.flatMap Row.children →
    ∃ n, built[j]? = some (some n) ∧ Trees rows [j] [n]
  empty : ∀ j < rows.length, j + done.length < rows.length ∨ j ∈ done.flatMap Row.children →
    built[j]? = some none

/-- Every row lists later rows only, and no row is listed twice. -/
structure IsOrdered (rows : List (Row α)) : Prop where
  later : ∀ i x, rows[i]? = some x → ∀ j ∈ x.children, i < j ∧ j < rows.length
  once : (rows.flatMap Row.children).Nodup

theorem isBuilt_build (ordered : IsOrdered rows) : IsBuilt rows rows (build rows) := by
  suffices ∀ before done, rows = before ++ done → IsBuilt rows done
      ((done.zipIdx before.length).foldr (fun x built => buildRow built x.2 x.1)
        (List.replicate rows.length none)) from this [] rows rfl
  intro before done
  induction done generalizing before with
  | nil =>
    rintro -
    refine ⟨by simp, fun j hj le => absurd le (by simpa using hj), fun j hj _ => ?_⟩
    simp [hj]
  | cons x done ih =>
    intro split
    have next := ih (before ++ [x]) (by simp [split])
    rw [List.length_append, List.length_singleton] at next
    rw [List.zipIdx_cons, List.foldr_cons]
    generalize (done.zipIdx (before.length + 1)).foldr _ _ = built at next ⊢
    have size : rows.length = before.length + (done.length + 1) := by simp [split]
    have row : rows[before.length]? = some x := by simp [split]
    have once := ordered.once
    rw [split, List.flatMap_append, List.flatMap_cons] at once
    obtain ⟨-, once, -⟩ := List.nodup_append'.1 once
    obtain ⟨own, -, apart⟩ := List.nodup_append'.1 once
    obtain ⟨trees, length, left⟩ := takeOut_spec next.length own (fun j hj => by
      obtain ⟨later, lt⟩ := ordered.later _ _ row j hj
      exact next.stands j lt (by omega) (apart hj))
    have lt : before.length < (takeOut built x.children).2.length := by omega
    refine ⟨by simp [buildRow, length], fun j hj le fresh => ?_, fun j hj early => ?_⟩
    · simp only [List.flatMap_cons, List.mem_append, not_or] at fresh
      by_cases here : before.length = j
      · subst here
        exact ⟨_, by simp [buildRow, lt], .cons row trees .nil⟩
      · have stands := next.stands j hj (by simp at le; omega) fresh.2
        simpa [buildRow, here, left j hj, fresh.1] using stands
    · have here : before.length ≠ j := by
        rintro rfl
        rcases early with early | taken
        · simp at early
          omega
        · obtain ⟨y, hy, taken⟩ := List.mem_flatMap.1 taken
          obtain ⟨k, hk⟩ := List.mem_iff_getElem?.1 hy
          have place : rows[before.length + k]? = some y := by
            rw [split, List.getElem?_append_right (Nat.le_add_right _ _), Nat.add_sub_cancel_left]
            exact hk
          have := (ordered.later _ _ place _ taken).1
          omega
      simp only [List.flatMap_cons, List.mem_append, List.length_cons] at early
      by_cases taken : j ∈ x.children
      · simp [buildRow, here, left j hj, taken]
      · have empty := next.empty j hj (by
          rcases early with early | early | early
          · exact .inl (by omega)
          · exact absurd early taken
          · exact .inr early)
        simp [buildRow, here, left j hj, taken, empty]

theorem flatMap_range_children (rows : List (Row α)) :
    (List.range rows.length).flatMap (fun i => ((rows[i]?).map Row.children).getD []) =
      rows.flatMap Row.children := by
  have each : (List.range rows.length).map (fun i => ((rows[i]?).map Row.children).getD []) =
      rows.map Row.children := by
    refine List.ext_getElem (by simp) (fun i hi _ => ?_)
    have lt : i < rows.length := by simpa using hi
    simp [lt]
  rw [List.flatMap_def, each, ← List.flatMap_def]

namespace IsCharted

variable {t : Table α} {c : Chart α}

theorem perm_rows (h : t.IsCharted c) :
    (t.roots ++ t.rows.flatMap Row.children).Perm (List.range t.rows.length) := by
  rw [h.roots, ← flatMap_range_children]
  calc (tops c ++ _)
    _ |>.Perm (tops c ++ (places c).flatMap _) := (h.once.flatMap_right _).symm.append_left _
    _ |>.Perm (places c) := h.holds.perm_places.symm
    _ |>.Perm _ := h.once

theorem isOrdered (h : t.IsCharted c) : IsOrdered t.rows := by
  have known (i : Nat) : i ∈ places c ↔ i < t.rows.length := by
    rw [h.once.mem_iff, List.mem_range]
  constructor
  · intro i x row j hj
    have there := (known i).2 (List.getElem?_eq_some_iff.1 row).1
    obtain ⟨lower, below⟩ := h.holds.later there row hj
    exact ⟨lower, (known j).1 below⟩
  · exact (List.nodup_append'.1 (h.perm_rows.nodup_iff.2 List.nodup_range)).2.1

/-- The table puts together the forest that it holds, and leaves no tree behind. -/
theorem takeOut_build (h : t.IsCharted c) :
    takeOut (build t.rows) t.roots =
      (Growth.forest (growth c), List.replicate t.rows.length none) := by
  have built := isBuilt_build h.isOrdered
  have owned := h.perm_rows
  obtain ⟨own, -, apart⟩ := List.nodup_append'.1 (owned.nodup_iff.2 List.nodup_range)
  obtain ⟨trees, length, left⟩ := takeOut_spec built.length own (fun j hj => by
    have lt : j < t.rows.length :=
      List.mem_range.1 (owned.mem_iff.1 (List.mem_append_left _ hj))
    exact built.stands j lt (by omega) (apart hj))
  refine Prod.ext ?_ (List.ext_getElem? (fun j => ?_))
  · rw [h.roots] at trees
    rw [h.roots]
    exact trees.unique h.holds.trees
  · by_cases hj : j < t.rows.length
    · rw [left j hj]
      rcases List.mem_append.1 (owned.mem_iff.2 (List.mem_range.2 hj)) with root | listed
      · simp [root, hj]
      · simp [hj, built.empty j hj (.inr listed)]
    · simp [hj, length]

end IsCharted

/-- A table grows the forest that grows by recursion, one path laid in after another. Every row of
it is one node of that forest: it is that of a root or listed by one row above it, all are taken
out when the forest is put together, and none is left. -/
theorem forest_eq_ofPaths [DecidableEq κ] (r : Rules α κ) (paths : List (Path α)) :
    (ofPaths r paths).forest = Forest.ofPaths r paths ∧
      (∀ p g, Growth.Lays r p g (Growth.insert r p g)) ∧
      (∃ c, (ofPaths r paths).IsCharted c ∧
        (ofPaths r paths).forest = Forest.map (fun x => x.1.1) c) ∧
      ((ofPaths r paths).roots ++ (ofPaths r paths).rows.flatMap Row.children).Perm
        (List.range (ofPaths r paths).rows.length) ∧
      (takeOut (build (ofPaths r paths).rows) (ofPaths r paths).roots).2 =
        List.replicate (ofPaths r paths).rows.length none := by
  obtain ⟨c, charted, grown⟩ := exists_isCharted_ofPaths r paths
  have together := charted.takeOut_build
  have forest : (ofPaths r paths).forest = Growth.forest (growth c) := congrArg Prod.fst together
  refine ⟨?_, Growth.lays_insert r, ⟨c, charted, ?_⟩, charted.perm_rows,
    congrArg Prod.snd together⟩
  · rw [forest, grown]
    rfl
  · rw [forest, Growth.forest, growth, Forest.map_map]

end Table

end WorldMarkup
