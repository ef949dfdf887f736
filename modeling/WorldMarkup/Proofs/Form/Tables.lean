import Mathlib.Data.String.Basic
import WorldMarkup.Form.Rework
import WorldMarkup.Proofs.Form.Components
import WorldMarkup.Proofs.Tree.Sorting

/-!
The keys of a form. Components stand by key in a sorted list, and the order names each key once.
Main statements: putting components in and laying forms over one another keep this, and sorting
the order leaves the keys kind by kind.
-/

set_option autoImplicit false
set_option relaxedAutoImplicit false

namespace WorldMarkup.Form

/-- Entries sorted by key, no key twice. -/
def IsSortedByKey (l : List (String × Component)) : Prop := l.Pairwise (fun x y => x.1 < y.1)

section Entries

variable {l : List (String × Component)} {key : String} {c : Component}

theorem mem_putAt {x : String × Component} (h : x ∈ putAt key c l) : x = (key, c) ∨ x ∈ l := by
  induction l with
  | nil => exact .inl (List.mem_singleton.1 h)
  | cons y rest ih =>
    rw [putAt] at h
    split at h
    · exact List.mem_cons.1 h
    · split at h
      · exact (List.mem_cons.1 h).imp_right (List.mem_cons_of_mem _)
      · rcases List.mem_cons.1 h with rfl | h
        · exact .inr (by simp)
        · exact (ih h).imp_right (List.mem_cons_of_mem _)

theorem mem_keys_putAt {k : String} :
    k ∈ (putAt key c l).map Prod.fst ↔ k = key ∨ k ∈ l.map Prod.fst := by
  induction l with
  | nil => simp [putAt]
  | cons y rest ih =>
    rw [putAt]
    split
    · simp
    · split
      · rename_i same
        simp [same]
      · rw [List.map_cons, List.mem_cons, ih, List.map_cons, List.mem_cons]
        exact or_left_comm

theorem IsSortedByKey.putAt (h : IsSortedByKey l) : IsSortedByKey (putAt key c l) := by
  induction l with
  | nil => exact List.pairwise_singleton _ _
  | cons y rest ih =>
    obtain ⟨next, later⟩ := List.pairwise_cons.1 h
    rw [Form.putAt]
    split
    · rename_i lt
      refine List.pairwise_cons.2 ⟨?_, h⟩
      intro x hx
      rcases List.mem_cons.1 hx with rfl | hx
      · exact lt
      · exact lt_trans lt (next x hx)
    · split
      · rename_i same
        refine List.pairwise_cons.2 ⟨?_, later⟩
        intro x hx
        have lt : y.1 < x.1 := next x hx
        rwa [← same] at lt
      · rename_i notLt ne
        have lt : y.1 < key := lt_of_le_of_ne (not_lt.1 notLt) (fun h => ne h.symm)
        refine List.pairwise_cons.2 ⟨?_, ih later⟩
        intro x hx
        rcases mem_putAt hx with rfl | hx
        · exact lt
        · exact next x hx

theorem IsSortedByKey.find?_eq_some (h : IsSortedByKey l) {x : String × Component} :
    l.find? (fun y => y.1 == key) = some x ↔ x ∈ l ∧ x.1 = key := by
  constructor
  · intro found
    exact ⟨List.mem_of_find?_eq_some found, by simpa using List.find?_some found⟩
  · rintro ⟨hx, rfl⟩
    induction l with
    | nil => simp at hx
    | cons y rest ih =>
      obtain ⟨next, later⟩ := List.pairwise_cons.1 h
      rcases List.mem_cons.1 hx with rfl | hx
      · simp
      · have ne : (y.1 == x.1) = false := by
          rw [beq_eq_false_iff_ne]
          exact ne_of_lt (next x hx)
        rw [List.find?_cons, ne]
        exact ih later hx

end Entries

/-- Components by key, all well formed, and an order that names each key once. -/
structure IsTable (P : Forest Tag → Prop) (f : Form) : Prop where
  sorted : IsSortedByKey f.byKey
  entries : ∀ x ∈ f.byKey, x.2.WellFormed P x.1
  once : f.order.Nodup
  listed : ∀ k, k ∈ f.order ↔ k ∈ f.byKey.map Prod.fst

/-- The keys stand kind by kind. -/
def IsGrouped (f : Form) : Prop :=
  f.order.Pairwise (fun a b => ∀ c d, f.component? a = some c → f.component? b = some d →
    c.kind.rank ≤ d.kind.rank)

/-- A form with all that belongs to it. -/
structure WellFormed (P : Forest Tag → Prop) (f : Form) : Prop extends IsTable P f where
  grouped : f.IsGrouped
  imports : P f.imports
  exports : P f.exports

variable {P : Forest Tag → Prop} {f g : Form} {c : Component} {k : String}

theorem component?_eq_some (h : IsSortedByKey f.byKey) :
    f.component? k = some c ↔ (k, c) ∈ f.byKey := by
  rw [component?, Option.map_eq_some_iff]
  constructor
  · rintro ⟨⟨k', c'⟩, found, rfl⟩
    obtain ⟨hmem, rfl⟩ := h.find?_eq_some.1 found
    exact hmem
  · intro hmem
    exact ⟨(k, c), h.find?_eq_some.2 ⟨hmem, rfl⟩, rfl⟩

theorem component?_isSome : (f.component? k).isSome = true ↔ k ∈ f.byKey.map Prod.fst := by
  rw [component?, Option.isSome_map, List.find?_isSome, List.mem_map]
  simp

theorem IsTable.component (h : f.IsTable P) (found : f.component? k = some c) :
    c.WellFormed P k :=
  h.entries (k, c) ((component?_eq_some h.sorted).1 found)

theorem IsTable.mem_order_iff (h : f.IsTable P) :
    k ∈ f.order ↔ (f.component? k).isSome = true := by
  rw [component?_isSome, h.listed]

theorem isTable_of_empty (entries : f.byKey = []) (order : f.order = []) :
    f.IsTable P ∧ f.IsGrouped := by
  refine ⟨⟨?_, by simp [entries], by simp [order], by simp [entries, order]⟩, ?_⟩
  · rw [IsSortedByKey, entries]
    exact .nil
  · rw [IsGrouped, order]
    exact .nil

/-- Putting a well-formed component in keeps a table. -/
theorem IsTable.put (h : f.IsTable P) (hc : c.WellFormed P c.key) : (f.put c).IsTable P where
  sorted := h.sorted.putAt
  entries := by
    intro x hx
    rcases mem_putAt hx with rfl | hx
    · exact hc
    · exact h.entries x hx
  once := by
    show (if (f.component? c.key).isSome then f.order else f.order ++ [c.key]).Nodup
    split
    · exact h.once
    · rename_i absent
      rw [← h.mem_order_iff] at absent
      rw [List.nodup_append]
      refine ⟨h.once, by simp, ?_⟩
      intro x hx y hy
      rw [List.mem_singleton] at hy
      rintro rfl
      rw [hy] at hx
      exact absent hx
  listed := by
    intro x
    show x ∈ (if (f.component? c.key).isSome then f.order else f.order ++ [c.key]) ↔
      x ∈ (putAt c.key c f.byKey).map Prod.fst
    rw [mem_keys_putAt, ← h.listed]
    split
    · rename_i present
      have own : c.key ∈ f.order := h.mem_order_iff.2 present
      constructor
      · exact .inr
      · rintro (rfl | hx)
        · exact own
        · exact hx
    · simp [or_comm]

theorem IsTable.replace (h : f.IsTable P) {existing : Component}
    (found : f.component? k = some existing) (hc : c.WellFormed P k) :
    IsTable P { f with byKey := putAt k c f.byKey } where
  sorted := h.sorted.putAt
  entries := by
    intro x hx
    rcases mem_putAt hx with rfl | hx
    · exact hc
    · exact h.entries x hx
  once := h.once
  listed := by
    intro x
    show x ∈ f.order ↔ x ∈ (putAt k c f.byKey).map Prod.fst
    have own : k ∈ f.order := by simp [h.mem_order_iff, found]
    rw [mem_keys_putAt, ← h.listed]
    constructor
    · exact .inr
    · rintro (rfl | hx)
      · exact own
      · exact hx

/-! ### Sorting -/

/-- The place of a key's kind; keys without a component come first. -/
def kindPlace (f : Form) (k : String) : Nat :=
  ((f.component? k).map (fun c => c.kind.rank + 1)).getD 0

theorem sortOrder_eq (f : Form) :
    f.sortOrder =
      { f with order := f.order.mergeSort (fun a b => f.kindPlace a ≤ f.kindPlace b) } := rfl

theorem isGrouped_of_isSorted (h : IsSorted f.kindPlace f.order) : f.IsGrouped := by
  refine List.Pairwise.imp ?_ h
  intro a b hab c d hc hd
  simpa [kindPlace, hc, hd] using hab

theorem IsTable.isSorted (h : f.IsTable P) (grouped : f.IsGrouped) :
    IsSorted f.kindPlace f.order := by
  refine List.Pairwise.imp_of_mem ?_ grouped
  intro a b ha hb hab
  obtain ⟨c, hc⟩ := Option.isSome_iff_exists.1 (h.mem_order_iff.1 ha)
  obtain ⟨d, hd⟩ := Option.isSome_iff_exists.1 (h.mem_order_iff.1 hb)
  have := hab c d hc hd
  simpa [kindPlace, hc, hd] using this

theorem isGrouped_sortOrder (f : Form) : f.sortOrder.IsGrouped :=
  isGrouped_of_isSorted (isSorted_mergeSort f.order)

theorem IsTable.sortOrder (h : f.IsTable P) : f.sortOrder.IsTable P where
  sorted := h.sorted
  entries := h.entries
  once := (List.mergeSort_perm f.order _).nodup_iff.2 h.once
  listed k := (List.mergeSort_perm f.order _).mem_iff.trans (h.listed k)

/-! ### Laying one form over another -/

theorem IsTable.overlay (hP : Forest.Gathers P) (h : f.IsTable P) (hc : c.WellFormed P c.key)
    (laid : f.overlay c = .ok g) : g.IsTable P := by
  unfold Form.overlay at laid
  split at laid
  · rename_i existing found
    split at laid
    · rename_i kind
      obtain rfl := Except.ok.inj laid
      exact h.replace found ((h.component found).absorb hP hc kind)
    · simp at laid
  · obtain rfl := Except.ok.inj laid
    exact h.put hc

theorem IsTable.overlayAll (hP : Forest.Gathers P) (h : f.IsTable P) {cs : List Component}
    (hcs : ∀ c ∈ cs, c.WellFormed P c.key) (laid : cs.foldlM Form.overlay f = .ok g) :
    g.IsTable P := by
  induction cs generalizing f with
  | nil =>
    obtain rfl := Except.ok.inj laid
    exact h
  | cons c cs ih =>
    rw [List.foldlM_cons] at laid
    obtain ⟨next, hnext, rest⟩ := Except.bind_eq_ok.1 laid
    exact ih (h.overlay hP (hcs c (by simp)) hnext) (fun d hd => hcs d (by simp [hd])) rest

theorem IsTable.components (h : f.IsTable P) : ∀ c ∈ f.components, c.WellFormed P c.key := by
  intro c hc
  obtain ⟨k, -, found⟩ := List.mem_filterMap.1 hc
  have wf := h.component found
  rw [wf.key_eq]
  exact wf

/-- Laying one well-formed form over another gives a well-formed one, if declarations that are
grown again keep the property. -/
theorem WellFormed.merge (hP : Forest.Gathers P)
    (folds : ∀ {t u}, P t → foldDeclarations t = .ok u → P u) {later : Form}
    (h : f.WellFormed P) (hlater : later.WellFormed P) (merged : f.merge later = .ok g) :
    g.WellFormed P := by
  unfold Form.merge at merged
  obtain ⟨table, htable, merged⟩ := Except.bind_eq_ok.1 merged
  obtain ⟨imports, himports, merged⟩ := Except.bind_eq_ok.1 merged
  obtain ⟨exports, hexports, merged⟩ := Except.bind_eq_ok.1 merged
  obtain rfl := Except.ok.inj merged
  have base : IsTable P
      { key := later.key, kind := later.kind, byKey := f.byKey, order := f.order } :=
    ⟨h.sorted, h.entries, h.once, h.listed⟩
  have laid := (base.overlayAll hP hlater.toIsTable.components htable).sortOrder
  refine ⟨⟨laid.sorted, laid.entries, laid.once, laid.listed⟩, isGrouped_sortOrder table, ?_, ?_⟩
  · exact folds (hP.append h.imports hlater.imports) himports
  · exact folds (hP.append h.exports hlater.exports) hexports

end WorldMarkup.Form
