import Mathlib.Data.List.Forall2
import WorldMarkup.Proofs.Tree.Filtering
import WorldMarkup.Proofs.Tree.Reordering
import WorldMarkup.Proofs.Tree.Standing

/-!
What grows from paths can be taken apart and grown again. Main statements: in a forest that grows
from paths that agree every node stands where it would be laid, as long as only categories whose
siblings may stand in any order have a rank; so an outline that is taken from a forest, reworked,
grown back and taken apart again grows into the same forest.
-/

set_option autoImplicit false
set_option relaxedAutoImplicit false

namespace WorldMarkup

/-! ### The search among siblings -/

namespace Rules

variable {α κ : Type} [DecidableEq κ] {r : Rules α κ} {d x : α} {passed rest : List α}

theorem finds_singleton : r.finds d [x] = (!r.isWrapper d && !r.isWrapper x && r.same x d) := by
  simp [finds]

theorem finds_cons_eq_false (h : r.finds d [x] = false) (hrest : r.finds d rest = false) :
    r.finds d (x :: rest) = false := by
  rw [finds_singleton] at h
  rw [finds, h, hrest, Bool.and_false, Bool.or_false]

theorem finds_append_eq_false
    (free : ∀ x ∈ passed, r.independent (r.category x) (r.category d) = true) :
    r.finds d (passed ++ rest) = false ↔
      (∀ x ∈ passed, r.finds d [x] = false) ∧ r.finds d rest = false := by
  induction passed with
  | nil => simp
  | cons x passed ih =>
    obtain ⟨own, others⟩ := List.forall_mem_cons.1 free
    rw [List.cons_append, finds, own, Bool.true_and, Bool.or_eq_false_iff, ih others,
      List.forall_mem_cons, finds_singleton, and_assoc]

theorem ranksBelow_asymm (h : r.ranksBelow d x = true) : r.ranksBelow x d = false := by
  unfold ranksBelow at h ⊢
  split at h
  · rename_i k j hd hx
    have lt : k < j := by simpa using h
    simp only [hd, hx, decide_eq_false_iff_not]
    omega
  · simp at h

end Rules

/-! ### Tags that stand for others -/

namespace Tag

variable {a b c d : Tag} {order : List Category}

theorem Kin.same_eq (h : a.Kin b) (c : Tag) : c.same a = c.same b := by
  rcases h with rfl | h
  · rfl
  · exact same_congr h c

theorem Kin.finds_eq (h : a.Kin b) {backward backward' : List Tag}
    (kin : List.Forall₂ Kin backward backward') :
    (Growth.regrowth order).finds a backward = (Growth.regrowth order).finds b backward' := by
  induction kin with
  | nil => rfl
  | @cons x y backward backward' hxy _ ih =>
    have same : x.same a = y.same b := by
      rw [h.same_eq, same_comm, hxy.same_eq, same_comm]
    have wrapper : x.isWrapper = y.isWrapper := hxy.isWrapper_eq
    have incoming : a.isWrapper = b.isWrapper := h.isWrapper_eq
    have categories : x.category = y.category ∧ a.category = b.category :=
      ⟨hxy.category_eq, h.category_eq⟩
    rw [Rules.finds, Rules.finds, ih]
    show (!a.isWrapper && !x.isWrapper && x.same a ||
        (Growth.regrowth order).independent x.category a.category && _) =
      (!b.isWrapper && !y.isWrapper && y.same b ||
        (Growth.regrowth order).independent y.category b.category && _)
    rw [same, wrapper, incoming, categories.1, categories.2]

theorem Kin.ranksBelow_eq (hab : a.Kin b) (hcd : c.Kin d) :
    (Growth.regrowth order).ranksBelow a c = (Growth.regrowth order).ranksBelow b d := by
  have first : (Growth.regrowth order).category a = (Growth.regrowth order).category b :=
    hab.category_eq
  have second : (Growth.regrowth order).category c = (Growth.regrowth order).category d :=
    hcd.category_eq
  rw [Rules.ranksBelow, Rules.ranksBelow, first, second]

theorem Kin.outranked_eq (h : a.Kin b) {backward backward' : List Tag}
    (kin : List.Forall₂ Kin backward backward') :
    (Growth.regrowth order).outranked a backward =
      (Growth.regrowth order).outranked b backward' := by
  cases kin with
  | nil => rfl
  | cons hxy _ => exact h.ranksBelow_eq hxy

theorem kin_refl_all (l : List Tag) : List.Forall₂ Kin l l := by
  induction l with
  | nil => exact .nil
  | cons x l ih => exact .cons (.refl x) ih

end Tag

/-! ### Nodes in place -/

namespace Forest

variable {order : List Category} {backward backward' : List Tag} {t u : Forest Tag}

theorem inPlaceAfter_append :
    InPlaceAfter (Growth.regrowth order) backward (t ++ u) ↔
      InPlaceAfter (Growth.regrowth order) backward t ∧
        InPlaceAfter (Growth.regrowth order) ((List.map Node.data t).reverse ++ backward) u := by
  induction t generalizing backward with
  | nil => simp [InPlaceAfter]
  | cons n t ih => simp [InPlaceAfter, ih, and_assoc]

theorem InPlaceAfter.of_kin (h : InPlaceAfter (Growth.regrowth order) backward t)
    (kin : List.Forall₂ Tag.Kin backward backward') :
    InPlaceAfter (Growth.regrowth order) backward' t := by
  induction t generalizing backward backward' with
  | nil => trivial
  | cons n t ih =>
    obtain ⟨unfound, last, below, beside⟩ := h
    refine ⟨?_, ?_, below, ih beside (.cons (.refl _) kin)⟩
    · rw [← (Tag.Kin.refl n.data).finds_eq kin]
      exact unfound
    · rw [← (Tag.Kin.refl n.data).outranked_eq kin]
      exact last

theorem InPlaceAfter.replace {n m : Node Tag}
    (h : InPlaceAfter (Growth.regrowth order) backward (t ++ n :: u)) (kin : n.data.Kin m.data)
    (below : m.InPlace (Growth.regrowth order)) :
    InPlaceAfter (Growth.regrowth order) backward (t ++ m :: u) := by
  rw [inPlaceAfter_append] at h ⊢
  obtain ⟨before, unfound, last, -, after⟩ := h
  refine ⟨before, ?_, ?_, below, after.of_kin (.cons kin (Tag.kin_refl_all _))⟩
  · rw [← kin.finds_eq (Tag.kin_refl_all _)]
    exact unfound
  · rw [← kin.outranked_eq (Tag.kin_refl_all _)]
    exact last

end Forest

/-! ### A new node among siblings -/

section Loose

variable {order : List Category}

theorem Tag.finds_comm (a b : Tag) :
    (Growth.regrowth order).finds a [b] = (Growth.regrowth order).finds b [a] := by
  rw [Rules.finds_singleton, Rules.finds_singleton]
  show (!a.isWrapper && !b.isWrapper && b.same a) = (!b.isWrapper && !a.isWrapper && a.same b)
  rw [same_comm, Bool.and_comm (!a.isWrapper)]

theorem Tag.independent_of_unordered {a b : Tag} (ha : a.category ∈ Category.unordered)
    (hb : b.category ∈ Category.unordered) :
    (Growth.regrowth order).independent ((Growth.regrowth order).category a)
      ((Growth.regrowth order).category b) = true := by
  simp [Rules.independent, Growth.regrowth, worldRules, ha, hb]

/-- Where only categories whose siblings may stand in any order have a rank, what has a rank is of
such a category. -/
theorem Tag.unordered_of_ranksBelow (loose : ∀ c ∈ order, c ∈ Category.unordered) {a b : Tag}
    (h : (Growth.regrowth order).ranksBelow a b = true) :
    a.category ∈ Category.unordered ∧ b.category ∈ Category.unordered := by
  have listed {c : Category} {k : Nat} (rank : (Growth.regrowth order).rank? c = some k) :
      c ∈ Category.unordered := by
    obtain ⟨hk, same, -⟩ := List.findIdx?_eq_some_iff_getElem.1 rank
    have same : order[k] = c := of_decide_eq_true same
    exact same ▸ loose _ (List.getElem_mem hk)
  unfold Rules.ranksBelow at h
  split at h
  · rename_i k j ha hb
    exact ⟨listed ha, listed hb⟩
  · simp at h

namespace Forest

theorem InPlaceAfter.slide {d : Tag} {passed backward : List Tag} {t : Forest Tag}
    (behind : ∀ n ∈ t, (Growth.regrowth order).ranksBelow d n.data = true ∧
      n.data.category ∈ Category.unordered ∧ (Growth.regrowth order).finds d [n.data] = false)
    (free : ∀ x ∈ passed, x.category ∈ Category.unordered)
    (h : InPlaceAfter (Growth.regrowth order) (passed ++ backward) t) :
    InPlaceAfter (Growth.regrowth order) (passed ++ d :: backward) t := by
  induction t generalizing passed with
  | nil => trivial
  | cons n t ih =>
    obtain ⟨⟨above, unordered, apart⟩, others⟩ := List.forall_mem_cons.1 behind
    obtain ⟨unfound, last, below, beside⟩ := h
    have pass : ∀ x ∈ passed, (Growth.regrowth order).independent
        ((Growth.regrowth order).category x) ((Growth.regrowth order).category n.data) = true :=
      fun x hx => Tag.independent_of_unordered (free x hx) unordered
    refine ⟨?_, ?_, below, ?_⟩
    · rw [Rules.finds_append_eq_false pass] at unfound ⊢
      rw [Tag.finds_comm] at apart
      exact ⟨unfound.1, Rules.finds_cons_eq_false apart unfound.2⟩
    · cases passed with
      | nil => exact Rules.ranksBelow_asymm above
      | cons x passed => exact last
    · exact ih others (List.forall_mem_cons.2 ⟨unordered, free⟩) beside

theorem InPlace.insert (loose : ∀ c ∈ order, c ∈ Category.unordered) {before after : Forest Tag}
    {n : Node Tag} (h : InPlace (Growth.regrowth order) (before ++ after))
    (unfound : (Growth.regrowth order).finds n.data
      (List.map Node.data (before ++ after)).reverse = false)
    (last : (Growth.regrowth order).outranked n.data (List.map Node.data before).reverse = false)
    (above : ∀ m ∈ after, (Growth.regrowth order).ranksBelow n.data m.data = true)
    (below : n.InPlace (Growth.regrowth order)) :
    InPlace (Growth.regrowth order) (before ++ n :: after) := by
  obtain ⟨first, second⟩ := inPlaceAfter_append.1 h
  rw [List.append_nil] at second
  have pass : ∀ x ∈ (List.map Node.data after).reverse, (Growth.regrowth order).independent
      ((Growth.regrowth order).category x) ((Growth.regrowth order).category n.data) = true := by
    intro x hx
    obtain ⟨m, hm, rfl⟩ := List.mem_map.1 (List.mem_reverse.1 hx)
    have free := Tag.unordered_of_ranksBelow loose (above m hm)
    exact Tag.independent_of_unordered free.2 free.1
  rw [List.map_append, List.reverse_append, Rules.finds_append_eq_false pass] at unfound
  refine inPlaceAfter_append.2 ⟨first, ?_⟩
  rw [List.append_nil]
  have behind : ∀ m ∈ after, (Growth.regrowth order).ranksBelow n.data m.data = true ∧
      m.data.category ∈ Category.unordered ∧
      (Growth.regrowth order).finds n.data [m.data] = false := by
    intro m hm
    refine ⟨above m hm, (Tag.unordered_of_ranksBelow loose (above m hm)).2, unfound.1 _ ?_⟩
    exact List.mem_reverse.2 (List.mem_map_of_mem hm)
  have none : ∀ x ∈ ([] : List Tag), x.category ∈ Category.unordered := by simp
  exact ⟨unfound.2, last, below, InPlaceAfter.slide behind none second⟩

end Forest

end Loose

/-! ### Faults of a forest -/

theorem Node.fault?_eq_none {isWrapper : Tag → Bool} {depth : Nat} {d : Tag} {e : Extra}
    {cs : Forest Tag} :
    Node.fault? isWrapper depth ⟨d, e, cs⟩ = none ↔
      depth < maxDepth ∧ (cs = [] → isWrapper d = false) ∧
        Forest.faultAt? isWrapper (depth + 1) cs = none := by
  unfold Node.fault?
  by_cases deep : maxDepth ≤ depth
  · have beyond : ¬ depth < maxDepth := by omega
    simp [deep, beyond]
  · have within : depth < maxDepth := by omega
    cases cs with
    | nil => simp [deep, within, Forest.faultAt?]
    | cons n cs => simp [deep, within]

theorem Forest.faultAt?_eq_none_iff {isWrapper : Tag → Bool} {depth : Nat} {t : Forest Tag} :
    Forest.faultAt? isWrapper depth t = none ↔ ∀ n ∈ t, n.fault? isWrapper depth = none := by
  induction t with
  | nil => simp [Forest.faultAt?]
  | cons n t ih => simp [Forest.faultAt?, ih]

/-! ### What one path does -/

namespace Growth

variable {σ : Type} {label : Nat → Tag} {R : Standing σ} {scope : σ} {order : List Category}

/-- A path goes below a sibling that speaks of what its first step does, or below a new node that
stands behind the siblings that do not rank above it. -/
theorem insert_shape {g : Growth Tag} (hg : ∀ n ∈ g, n.data.1.Kin (label n.data.2))
    {s : Step Tag} (hs : s.data.Kin (label s.origin)) (rest : Path Tag) :
    (∃ before n after d e, g = before ++ n :: after ∧ n.data.1.Kin d ∧ s.data.Kin d ∧
      insert (regrowth order) (s :: rest) g =
        before ++ ⟨(d, n.data.2), e, insert (regrowth order) rest n.children⟩ :: after) ∨
    ((regrowth order).finds s.data (List.map Node.data g.forest).reverse = false ∧
      ∃ before after, g = before ++ after ∧
        insert (regrowth order) (s :: rest) g =
          before ++ ⟨(s.data, s.origin), s.extra, insert (regrowth order) rest []⟩ :: after ∧
        (regrowth order).outranked s.data (List.map Node.data (forest before)).reverse = false ∧
        ∀ m ∈ forest after, (regrowth order).ranksBelow s.data m.data = true) := by
  rcases meets_or_isNew (regrowth order) s g with ⟨before, n, after, rfl, hmeets⟩ | hnew
  · have kin : n.data.1.Kin s.data := kin_of_meets (hg n (by simp)) hs hmeets
    have kept : n.data.1.Kin (Step.settle (step n) s).1 ∧
        s.data.Kin (Step.settle (step n) s).1 :=
      settle_of_both (P := fun t => n.data.1.Kin t ∧ s.data.Kin t) ⟨.refl _, kin.symm⟩
        ⟨kin, .refl _⟩
    exact .inl ⟨before, n, after, _, _, rfl, kept.1, kept.2, insert_of_meets rest hmeets⟩
  · right
    have told (g : Growth Tag) : (List.map Node.data (forest g)).reverse =
        g.reverse.map (fun n => n.data.1) := by
      rw [data_forest, List.map_reverse]
    have unfound := match?_eq_none.1 hnew.unmatched
    rw [List.map_map] at unfound
    obtain ⟨before, after, split, laid, last, above⟩ := exists_of_isNew hnew
    refine ⟨by rw [told]; exact unfound, before, after, split, laid rest,
      by rw [told]; exact last, ?_⟩
    intro m hm
    have : m.data ∈ List.map (fun n => n.data.1) after := by
      rw [← data_forest]
      exact List.mem_map_of_mem hm
    obtain ⟨n, hn, same⟩ := List.mem_map.1 this
    rw [← same]
    exact above n hn

theorem inPlace_insert (loose : ∀ c ∈ order, c ∈ Category.unordered) {p : Path Tag}
    {g : Growth Tag} (labelled : ∀ s ∈ p, s.data.Kin (label s.origin))
    (hg : Forest.Grows label R scope g) (h : Forest.InPlace (regrowth order) g.forest) :
    Forest.InPlace (regrowth order) (insert (regrowth order) p g).forest := by
  induction p generalizing scope g with
  | nil => exact h
  | cons s rest ih =>
    obtain ⟨own, later⟩ := List.forall_mem_cons.1 labelled
    rcases insert_shape (labelled_of_grows hg) own rest with
      ⟨before, n, after, d, e, rfl, kin, -, laid⟩ |
      ⟨unfound, before, after, rfl, laid, last, behind⟩
    · rcases n with ⟨⟨t, number⟩, e', cs⟩
      obtain ⟨-, ⟨-, -, hcs⟩, -⟩ := grows_append.1 hg
      rw [forest_replace] at h
      have below : Node.InPlace (regrowth order) ⟨t, e', forest cs⟩ :=
        (Forest.inPlaceAfter_append.1 h).2.2.2.1
      rw [laid, forest_replace]
      exact h.replace kin (ih later hcs below)
    · have nothing : Forest.Grows label R scope [] := trivial
      have inside : Forest.InPlace (regrowth order) (insert (regrowth order) rest []).forest :=
        ih later nothing trivial
      rw [forest_append] at h unfound
      rw [laid, forest_replace]
      exact h.insert loose unfound last behind inside

theorem forest_insert_ne_nil {p : Path Tag} (nonempty : p ≠ []) (g : Growth Tag) :
    (insert (regrowth order) p g).forest ≠ [] := by
  cases p with
  | nil => exact absurd rfl nonempty
  | cons s rest =>
    rcases meets_or_isNew (regrowth order) s g with ⟨before, n, after, rfl, hmeets⟩ | hnew
    · rw [insert_of_meets rest hmeets, forest_replace]
      simp
    · obtain ⟨before, after, -, laid, -⟩ := exists_of_isNew hnew
      rw [laid, forest_replace]
      simp

/-- Laying in a path without fault leaves no fault. -/
theorem faultless_insert {p : Path Tag} {g : Growth Tag} {depth : Nat}
    (labelled : ∀ s ∈ p, s.data.Kin (label s.origin)) (hg : Forest.Grows label R scope g)
    (short : depth + p.length ≤ maxDepth) (ended : ∀ s ∈ p.getLast?, s.data.isWrapper = false)
    (h : Forest.faultAt? Tag.isWrapper depth g.forest = none) :
    Forest.faultAt? Tag.isWrapper depth (insert (regrowth order) p g).forest = none := by
  induction p generalizing scope g depth with
  | nil => exact h
  | cons s rest ih =>
    obtain ⟨own, later⟩ := List.forall_mem_cons.1 labelled
    rw [List.length_cons] at short
    have plain : rest = [] → s.data.isWrapper = false := by
      rintro rfl
      exact ended s rfl
    have ended' : ∀ x ∈ rest.getLast?, x.data.isWrapper = false := by
      intro x hx
      apply ended x
      cases rest with
      | nil => simp at hx
      | cons y rest => simpa using hx
    have emptied {c : Growth Tag} (empty : (insert (regrowth order) rest c).forest = []) :
        s.data.isWrapper = false := by
      by_cases hrest : rest = []
      · exact plain hrest
      · exact absurd empty (forest_insert_ne_nil hrest c)
    rw [Forest.faultAt?_eq_none_iff] at h ⊢
    rcases insert_shape (labelled_of_grows hg) own rest with
      ⟨before, n, after, d, e, rfl, -, kin, laid⟩ | ⟨-, before, after, rfl, laid, -, -⟩
    · rcases n with ⟨⟨t, number⟩, e', cs⟩
      obtain ⟨-, ⟨-, -, hcs⟩, -⟩ := grows_append.1 hg
      rw [forest_replace, List.forall_mem_append, List.forall_mem_cons] at h
      obtain ⟨hbefore, hn, hafter⟩ := h
      obtain ⟨within, -, below⟩ := Node.fault?_eq_none.1 hn
      rw [laid, forest_replace, List.forall_mem_append, List.forall_mem_cons]
      refine ⟨hbefore, Node.fault?_eq_none.2 ⟨within, fun empty => ?_, ?_⟩, hafter⟩
      · rw [← kin.isWrapper_eq]
        exact emptied empty
      · exact ih later hcs (by omega) ended' below
    · have nothing : Forest.Grows label R scope [] := trivial
      have inside : Forest.faultAt? Tag.isWrapper (depth + 1)
          (insert (regrowth order) rest []).forest = none :=
        ih later nothing (by omega) ended' rfl
      rw [forest_append, List.forall_mem_append] at h
      rw [laid, forest_replace, List.forall_mem_append, List.forall_mem_cons]
      exact ⟨h.1, Node.fault?_eq_none.2 ⟨by omega, emptied, inside⟩, h.2⟩

/-! ### What all paths do -/

/-- Tags may stand anywhere. -/
def freely : Standing Unit where
  allows _ _ := True
  below _ _ := ()

theorem respects_freely : freely.Respects := Standing.respects_of_eq fun _ => rfl

theorem stands_freely (p : Path Tag) : Path.Stands freely () p := by
  induction p with
  | nil => trivial
  | cons s rest ih => exact ⟨trivial, ih⟩

/-- A property of growing forests that laying in a path keeps, laying in paths that agree keeps. -/
theorem insertAll_keeps {P : Forest Tag → Prop} {paths : List (Path Tag)}
    (agree : Path.Agree paths)
    (step : ∀ p ∈ paths, ∀ g : Growth Tag, Forest.Grows (Path.label paths) freely () g →
      P g.forest → P (insert (regrowth order) p g).forest)
    (start : P []) : P (insertAll (regrowth order) paths []).forest := by
  have keeps (more : List (Path Tag)) (sub : ∀ p ∈ more, p ∈ paths) (g : Growth Tag)
      (hg : Forest.Grows (Path.label paths) freely () g) (h : P g.forest) :
      P (insertAll (regrowth order) more g).forest := by
    induction more generalizing g with
    | nil => exact h
    | cons p more ih =>
      obtain ⟨hp, hmore⟩ := List.forall_mem_cons.1 sub
      have labelled : ∀ s ∈ p, s.data.Kin (Path.label paths s.origin) :=
        fun s hs => agree.kin_label (List.mem_flatten.2 ⟨p, hp, hs⟩)
      rw [insertAll_cons]
      exact ih hmore _ (grows_insert respects_freely labelled (stands_freely p) hg)
        (step p hp g hg h)
  exact keeps paths (fun _ h => h) [] trivial start

end Growth

namespace Forest

variable {paths : List (Path Tag)}

theorem inPlace_insertAll {order : List Category} (loose : ∀ c ∈ order, c ∈ Category.unordered)
    (agree : Path.Agree paths) :
    Forest.InPlace (Growth.regrowth order)
      (Growth.insertAll (Growth.regrowth order) paths []).forest := by
  apply Growth.insertAll_keeps (P := Forest.InPlace (Growth.regrowth order)) agree _ trivial
  intro p hp g hg h
  exact Growth.inPlace_insert loose
    (fun s hs => agree.kin_label (List.mem_flatten.2 ⟨p, hp, hs⟩)) hg h

theorem settled_ofPaths (agree : Path.Agree paths) :
    Forest.Settled worldRules (Forest.ofPaths worldRules paths) := by
  have none : ∀ c ∈ ([] : List Category), c ∈ Category.unordered := by simp
  exact (inPlace_insertAll none agree).settledAfter

theorem faultless_ofPaths (agree : Path.Agree paths)
    (faultless : ∀ p ∈ paths, Path.fault? Tag.isWrapper p = none) :
    Forest.fault? Tag.isWrapper (Forest.ofPaths worldRules paths) = none := by
  apply Growth.insertAll_keeps
    (P := fun t => Forest.fault? Tag.isWrapper t = none) agree _ rfl
  intro p hp g hg h
  have hfault := faultless p hp
  unfold Path.fault? at hfault
  split at hfault
  · simp at hfault
  · rename_i short
    apply Growth.faultless_insert
      (fun s hs => agree.kin_label (List.mem_flatten.2 ⟨p, hp, hs⟩)) hg (by omega) _ h
    intro s hs
    rw [Option.mem_def] at hs
    rw [hs] at hfault
    simpa using hfault

end Forest

/-! ### Outlines that are reworked -/

namespace Path

theorem exists_of_mem_filter {α : Type} {isWrapper : α → Bool} {wanted : Path α → Bool}
    {paths : List (Path α)} {q : Path α} {s : Step α} (hq : q ∈ Path.filter isWrapper wanted paths)
    (hs : s ∈ q) : ∃ p ∈ paths, s ∈ p := by
  rcases mem_keepOrStandIn hq with ⟨hq, -⟩ | ⟨p, hp, -, n, found, -⟩
  · exact ⟨q, hq, hs⟩
  · obtain ⟨w, b, -, -, -, -, stands⟩ := standIn?_eq_some found
    exact ⟨p, hp, stands.shortens.subset hs⟩

theorem mem_of_mem_dropMarked {α : Type} {q : Query α} {p : Path α} {s : Step α}
    (hs : s ∈ dropMarked q p) : s ∈ p := by
  obtain ⟨⟨x, marked⟩, hx, kept⟩ := List.mem_filterMap.1 hs
  cases marked with
  | true => simp at kept
  | false =>
    obtain rfl : x = s := by simpa using kept
    exact (List.of_mem_zip hx).1

theorem Agree.sub {paths more : List (Path Tag)} (h : Agree paths)
    (source : ∀ q ∈ more, ∀ s ∈ q, ∃ p ∈ paths, s ∈ p) : Agree more := by
  apply h.of_steps
  intro s hs
  obtain ⟨q, hq, hsq⟩ := List.mem_flatten.1 hs
  obtain ⟨p, hp, hsp⟩ := source q hq s hsq
  exact ⟨s, List.mem_flatten.2 ⟨p, hp, hsp⟩, rfl, .refl _⟩

end Path

namespace WorldOutline

/-- Taken from a forest and reworked any number of times. Where siblings are ranked, they are
ranked by categories whose siblings may stand in any order. -/
inductive IsReworked : WorldOutline → Prop
  | taken {t : Forest Tag} {o : WorldOutline} (h : ofForest t = .ok o) : IsReworked o
  | filter {o : WorldOutline} (h : IsReworked o) (q : Query Tag) : IsReworked (o.filter q)
  | prune {o : WorldOutline} (h : IsReworked o) (q : Query Tag) : IsReworked (o.prune q)
  | reorder {o : WorldOutline} (h : IsReworked o) (qs : List (Query Tag)) :
    IsReworked (o.reorder qs)
  | rankSiblings {o : WorldOutline} (h : IsReworked o) (order : List Category)
    (loose : ∀ c ∈ order, c ∈ Category.unordered) : IsReworked (o.rankSiblings order)

/-- However an outline is reworked, steps of one number speak of one thing. -/
theorem IsReworked.agree {o : WorldOutline} (h : o.IsReworked) : Path.Agree o.paths := by
  induction h with
  | @taken t o h =>
    obtain ⟨-, rfl⟩ := Outline.ofForest_eq_ok.1 h
    exact Forest.agree_pathsFrom 0 t
  | filter _ q ih => exact ih.sub (fun p hp s hs => Path.exists_of_mem_filter hp hs)
  | prune _ q ih =>
    apply ih.sub
    intro p hp s hs
    obtain ⟨x, hx, rfl⟩ := List.mem_map.1 (List.mem_filter.1 hp).1
    exact ⟨x, hx, Path.mem_of_mem_dropMarked hs⟩
  | reorder _ qs ih =>
    apply ih.sub
    intro p hp s hs
    obtain ⟨x, hx, rfl⟩ := List.mem_map.1 hp
    exact ⟨x, hx, Path.mem_of_mem_reorder hs⟩
  | rankSiblings _ order loose ih => exact ih

theorem IsReworked.rules_eq {o : WorldOutline} (h : o.IsReworked) :
    ∃ order : List Category, (∀ c ∈ order, c ∈ Category.unordered) ∧
      o.rules = Growth.regrowth order := by
  induction h with
  | taken h =>
    obtain ⟨-, rfl⟩ := Outline.ofForest_eq_ok.1 h
    exact ⟨[], by simp, rfl⟩
  | filter _ q ih => exact ih
  | prune _ q ih => exact ih
  | reorder _ qs ih => exact ih
  | rankSiblings _ order loose ih =>
    obtain ⟨_, -, rules⟩ := ih
    exact ⟨order, loose, by rw [Outline.rankSiblings, rules]; rfl⟩

/-- An outline that is taken from a forest, reworked, grown back and taken apart again under the
same rules grows into the same forest. -/
theorem IsReworked.forest_refold {o o' : WorldOutline} (h : o.IsReworked)
    (taken : Outline.ofForest o.rules o.forest = .ok o') : o'.forest = o.forest := by
  obtain ⟨order, loose, rules⟩ := h.rules_eq
  obtain ⟨-, rfl⟩ := Outline.ofForest_eq_ok.1 taken
  have inPlace : Forest.InPlace o.rules o.forest := by
    rw [Outline.forest, rules]
    exact Forest.inPlace_insertAll loose h.agree
  apply Forest.ofPaths_of_inPlace _ inPlace
  rw [rules]
  exact Step.settle_self

/-- What stands in the hall and at its door, conditionals first on every path and entities first
among siblings. -/
def hallByRank : WorldOutline :=
  ((Outline.prune ⟨worldRules, Forest.paths hallWithDoor⟩ (.exactly (.room "hall"))).reorder
    [.test Tag.isWrapper]).rankSiblings [.entity, .conditional]

theorem IsReworked.forest_refold_hallByRank :
    hallByRank.IsReworked ∧ ∃ o', Outline.ofForest hallByRank.rules hallByRank.forest = .ok o' ∧
      o'.forest = hallByRank.forest := by
  have start : WorldOutline.ofForest hallWithDoor = .ok ⟨worldRules, Forest.paths hallWithDoor⟩ :=
    Outline.ofForest_eq_ok.2 ⟨by decide, rfl⟩
  have reworked : hallByRank.IsReworked :=
    (((IsReworked.taken start).prune _).reorder _).rankSiblings _ (by decide)
  have taken : Outline.ofForest hallByRank.rules hallByRank.forest =
      .ok ⟨hallByRank.rules, Forest.paths hallByRank.forest⟩ :=
    Outline.ofForest_eq_ok.2 ⟨by decide, rfl⟩
  exact ⟨reworked, _, taken, reworked.forest_refold taken⟩

end WorldOutline

end WorldMarkup
