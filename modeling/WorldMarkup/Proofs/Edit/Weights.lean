import WorldMarkup.Proofs.Edit.Blanks
import WorldMarkup.Proofs.Edit.Remainders
import WorldMarkup.Proofs.Form.TextRuns

/-!
What resolving edits may not add to. A text weighs one more than its characters, any other node one.
Main statements: joining runs makes a forest lighter or leaves it as it is, and what one side of a
comparison goes on with is no heavier than the side.
-/

set_option autoImplicit false
set_option relaxedAutoImplicit false

namespace WorldMarkup

/-- A text weighs one more than its characters, any other node one. -/
def Tag.weight : Tag → Nat
  | .text value => value.length + 1
  | _ => 1

def Forest.weight (t : Forest Tag) : Nat := Forest.total Tag.weight t

namespace Tag

theorem weight_text (value : String) : (Tag.text value).weight = value.length + 1 := rfl

theorem weight_pos (t : Tag) : 0 < t.weight := by
  cases t <;> simp [weight]

end Tag

namespace Forest

variable {t u : Forest Tag}

@[simp] theorem weight_nil : weight [] = 0 := rfl

theorem weight_cons (d : Tag) (e : Extra) (cs rest : Forest Tag) :
    weight (⟨d, e, cs⟩ :: rest) = d.weight + weight cs + weight rest := rfl

theorem weight_append (t u : Forest Tag) : weight (t ++ u) = weight t + weight u :=
  total_append t u

theorem weight_node_cons (n : Node Tag) (t : Forest Tag) :
    weight (n :: t) = weight [n] + weight t :=
  weight_append [n] t

theorem weight_reverse (t : Forest Tag) : weight t.reverse = weight t := by
  induction t with
  | nil => rfl
  | cons n t ih =>
    rw [List.reverse_cons, weight_append, ih, weight_node_cons n t, Nat.add_comm]

theorem weight_eq_zero : weight t = 0 ↔ t = [] := by
  cases t with
  | nil => simp
  | cons n t =>
    rcases n with ⟨d, e, cs⟩
    have := d.weight_pos
    simp only [weight_cons, reduceCtorEq, iff_false]
    omega

/-! ### Joining runs -/

/-- Joining runs makes a forest lighter or changes nothing. -/
theorem weight_joinTextAfter (held : Option (Node Tag)) (t : Forest Tag) :
    weight (joinTextAfter held t) < weight held.toList + weight t ∨
      joinTextAfter held t = held.toList ++ t := by
  induction t using Forest.induction generalizing held with
  | nil => exact .inr (by rw [joinTextAfter_nil, List.append_nil])
  | cons d e cs rest hcs hrest =>
    have kept : weight (held.toList ++ joinTextAfter (some ⟨d, e, joinTextAfter none cs⟩) rest) <
          weight held.toList + weight (⟨d, e, cs⟩ :: rest) ∨
        held.toList ++ joinTextAfter (some ⟨d, e, joinTextAfter none cs⟩) rest =
          held.toList ++ ⟨d, e, cs⟩ :: rest := by
      have beside := hrest (some ⟨d, e, joinTextAfter none cs⟩)
      have below := hcs none
      simp only [Option.toList_some, Option.toList_none, weight_cons, weight_nil] at beside below
      rw [weight_append, weight_cons]
      rcases beside with beside | beside <;> rcases below with below | below
      · left
        omega
      · left
        rw [below] at beside ⊢
        simp only [List.nil_append] at beside ⊢
        omega
      · left
        rw [beside, List.singleton_append, weight_cons]
        omega
      · right
        rw [beside, below]
        rfl
    cases text : d.isText with
    | false => rwa [joinTextAfter_cons text]
    | true =>
      obtain ⟨value, rfl⟩ := Tag.eq_text_of_isText text
      have dropped : weight (joinTextAfter held rest) <
          weight held.toList + weight (⟨.text value, e, cs⟩ :: rest) := by
        have beside := hrest held
        rw [weight_cons, Tag.weight]
        rcases beside with beside | beside
        · omega
        · rw [beside, weight_append]
          omega
      by_cases run : ∃ before e' cs', held = some ⟨.text before, e', cs'⟩
      · obtain ⟨before, e', cs', rfl⟩ := run
        rw [joinTextAfter]
        split
        · exact .inl dropped
        · left
          have beside := hrest (some ⟨.text (before ++ value), e', cs'⟩)
          simp only [Option.toList_some, weight_cons, weight_nil, Tag.weight,
            String.length_append] at beside ⊢
          rcases beside with beside | beside
          · omega
          · rw [beside, List.singleton_append, weight_cons, Tag.weight, String.length_append]
            omega
      · rw [joinTextAfter]
        · split
          · exact .inl dropped
          · exact kept
        · exact fun before e' cs' h => run ⟨before, e', cs', h⟩

theorem weight_joinText_le (t : Forest Tag) : weight (joinText t) ≤ weight t := by
  rcases weight_joinTextAfter none t with lighter | same
  · exact Nat.le_of_lt (by simpa [joinText] using lighter)
  · exact Nat.le_of_eq (by simpa [joinText] using congrArg weight same)

theorem joinText_eq_of_weight (h : weight t ≤ weight (joinText t)) : joinText t = t := by
  rcases weight_joinTextAfter none t with lighter | same
  · have : weight (joinText t) < weight t := by simpa [joinText] using lighter
    omega
  · simpa [joinText] using same

end Forest

/-! ### Growing back -/

namespace Growth

theorem weight_forest (g : Growth Tag) :
    Forest.weight (Growth.forest g) = Forest.total (fun x => x.1.weight) g := by
  unfold Growth.forest
  induction g using Forest.induction with
  | nil => rfl
  | cons d e cs rest hcs hrest =>
    rw [Forest.map, Node.map, Forest.weight_cons, hcs, hrest]
    rfl

theorem weight_settle (x s : Step Tag) :
    (x.settle s).1.weight ≤ x.data.weight + s.data.weight := by
  rcases settle_data x s with own | other
  · rw [own]
    omega
  · rw [other]
    omega

/-- Laying in the paths of a forest adds no more than the forest. -/
theorem weight_insertAll (g h : Growth Tag) :
    Forest.weight (Growth.forest (insertAll (regrowth []) (Forest.routes h) g)) ≤
      Forest.weight (Growth.forest g) + Forest.weight (Growth.forest h) := by
  induction h using Forest.induction generalizing g with
  | nil => simp [Forest.routes, insertAll_nil]
  | cons d e cs rest hcs hrest =>
    rcases d with ⟨d, number⟩
    have inside (k : Growth Tag) :
        Forest.weight (Growth.forest (insertAll (regrowth []) (Forest.routesBelow cs) k)) ≤
          Forest.weight (Growth.forest k) + Forest.weight (Growth.forest cs) := by
      cases cs with
      | nil => exact Nat.le_add_right _ _
      | cons n cs => exact hcs k
    have root : Forest.weight (Growth.forest (insertAll (regrowth [])
          ((Forest.routesBelow cs).map (⟨d, e, number⟩ :: ·)) g)) ≤
        Forest.weight (Growth.forest g) + (d.weight + Forest.weight (Growth.forest cs)) := by
      rcases meets_or_isNew (regrowth []) ⟨d, e, number⟩ g with ⟨before, n, after, rfl, meets⟩ | new
      · have below := inside n.children
        have own := weight_settle (step n) ⟨d, e, number⟩
        rw [insertAll_of_meets meets (Forest.routesBelow_ne_nil cs), forest_replace, forest_replace,
          Forest.weight_append, Forest.weight_append, Forest.weight_cons, Forest.weight_cons]
        simp only [step] at own ⊢
        omega
      · have unfound := match?_eq_none.1 new.unmatched
        rw [List.map_map] at unfound
        have strange : ∀ n ∈ g, n.data.2 ≠ number := fun n hn =>
          new.strange (step n) (List.mem_map_of_mem (List.mem_reverse.2 hn))
        have below := inside []
        rw [insertAll_of_unfound Step.settle_self strange unfound (Rules.outranked_eq_false rfl _ _)
            (Forest.routesBelow_ne_nil cs), forest_append, forest_node, Forest.weight_append,
          Forest.weight_cons]
        simp only [Growth.forest, Forest.map, Forest.weight_nil] at below ⊢
        omega
    have beside := hrest (insertAll (regrowth []) ((Forest.routesBelow cs).map
      (⟨d, e, number⟩ :: ·)) g)
    have whole : Forest.weight (Growth.forest (⟨(d, number), e, cs⟩ :: rest)) =
        d.weight + Forest.weight (Growth.forest cs) + Forest.weight (Growth.forest rest) := rfl
    rw [Forest.routes_cons, insertAll_append, whole]
    omega

end Growth

namespace Alignment

theorem weight_excessLeaves (e : Extra) (excess : List Char) (number : Nat) :
    ((leafSteps number (excessLeaves e excess)).map (fun l => l.data.weight)).sum ≤
      excess.length + 1 := by
  have weights : (leafSteps number (excessLeaves e excess)).map (fun l => l.data.weight) =
      (excessLeaves e excess).map (fun l => l.1.weight) := by
    have data := congrArg (List.map Tag.weight) (map_data_leafSteps number (excessLeaves e excess))
    rwa [List.map_map, List.map_map] at data
  have spaces (blanks : List Char) :
      ((spacesFor blanks).map (fun l => l.1.weight)).sum ≤ blanks.length := by
    cases blanks <;> simp [spacesFor, Tag.weight]
  have lengths := congrArg List.length (Text.lead_append_trail excess)
  have first := spaces (Text.lead excess)
  have last := spaces (Text.trail excess)
  rw [weights, excessLeaves_eq]
  simp only [List.map_append, List.sum_append, List.length_append] at lengths ⊢
  split
  · simp only [List.map_nil, List.sum_nil]
    omega
  · simp only [List.map_cons, List.map_nil, List.sum_cons, List.sum_nil, Tag.weight_text,
      String.length_ofList]
    omega

end Alignment

open WorldMarkup.Alignment

theorem weight_baseLonger {base edit r : Forest Tag} {boundary : Boundary}
    (h : compareEdits base edit = .ok (.baseLonger r boundary)) :
    Forest.weight r ≤ Forest.weight base := by
  obtain ⟨b, rem, grown⟩ := remainders_of_baseLonger h
  have whole : Forest.weight base =
      Forest.total (fun x => x.1.weight) (Forest.numbered 0 base) := by
    rw [← Growth.weight_forest, Forest.forest_numbered]
  rw [Forest.paths, ← Forest.routes_numbered] at rem
  obtain ⟨g, rfl, left⟩ := exists_remains rem
  have laid := Growth.weight_insertAll [] g
  rw [regrow_eq_ok grown, whole]
  rw [Growth.weight_forest g] at laid
  have none : Forest.weight (Growth.forest ([] : Growth Tag)) = 0 := rfl
  rcases left with rfl | ⟨s, leaves, excess, total⟩
  · omega
  have total : Forest.total (fun x => x.1.weight) g + s.data.weight ≤
      Forest.total (fun x => x.1.weight) (Forest.numbered 0 base) +
        (leaves.map (fun l => l.data.weight)).sum := total (fun x => x.1.weight)
  have least : (leaves.map (fun l => l.data.weight)).sum ≤ s.data.weight := by
    rcases excess with rfl | ⟨boundary', value, near, x, text, long, rfl⟩
    · simp
    · have length : value.length = near.length + x.length := by
        rw [← String.length_toList, long]
        cases boundary' <;> simp [Nat.add_comm]
      have := weight_excessLeaves s.extra x (freshNumber (Forest.routes (Forest.numbered 0 base)))
      rw [text, Tag.weight]
      omega
  omega

theorem weight_editLonger {base edit r : Forest Tag} {boundary : Boundary}
    (h : compareEdits base edit = .ok (.editLonger r boundary)) :
    Forest.weight r ≤ Forest.weight edit :=
  weight_baseLonger (compareEdits_ok_swap h)

end WorldMarkup
