import WorldMarkup.Proofs.Tree.Meaning
import WorldMarkup.Proofs.Tree.Pruning
import WorldMarkup.Proofs.Tree.Reordering

/-!
The order that a list of queries gives the steps of a path, told by the positions of the steps.
Main statement: outside the window from the first marked step to the last every step stays; in
the window the marked steps come first, by the first query that marks them and then by position,
and the others follow by position. When each query looks at one step at a time, a second time
nothing changes.
-/

set_option autoImplicit false
set_option relaxedAutoImplicit false

namespace WorldMarkup.Path

variable {α β : Type}

section Positions

variable (qs : List (Query α)) (p : Path α)

def IsMarked (i : Nat) : Prop := ∃ q ∈ qs, (q.marks p)[i]? = some true

/-- Query `k` is the first one that marks the step at position `i`. -/
structure FirstMarks (k i : Nat) : Prop where
  marks : ∃ q ∈ qs[k]?, (q.marks p)[i]? = some true
  first : ∀ j < k, ∀ q ∈ qs[j]?, (q.marks p)[i]? ≠ some true

/-- The position is neither above the first marked step nor below the last. -/
def InWindow (i : Nat) : Prop := (∃ j ≤ i, IsMarked qs p j) ∧ ∃ j ≥ i, IsMarked qs p j

/-- Whether the step at position `i` goes before the step at position `j`. -/
inductive Leads (i j : Nat) : Prop
  | earlierQuery {k l : Nat} : FirstMarks qs p k i → FirstMarks qs p l j → k < l → Leads i j
  | sameQuery {k : Nat} : FirstMarks qs p k i → FirstMarks qs p k j → i < j → Leads i j
  | marked : IsMarked qs p i → ¬ IsMarked qs p j → Leads i j
  | unmarked : ¬ IsMarked qs p i → ¬ IsMarked qs p j → i < j → Leads i j

/-- The positions of a path in the order that the queries give its steps. -/
structure IsReordering (order : List Nat) : Prop where
  perm : order.Perm (List.range p.length)
  outside : ∀ i < p.length, ¬ InWindow qs p i → order[i]? = some i
  inside : order.Pairwise (fun i j => InWindow qs p i → InWindow qs p j → Leads qs p i j)

def rankAt (i : Nat) : Option Nat := (priorities qs p).getD i none

def rankOf (d : α) : Option Nat := qs.findIdx? (fun q => q.selects d)

end Positions

variable {qs : List (Query α)} {p : Path α} {i k : Nat}

/-! ### Ranks -/

theorem length_priorities (qs : List (Query α)) (p : Path α) :
    (priorities qs p).length = p.length := by
  rw [priorities, List.length_map, List.length_range]

theorem firstMarks_iff :
    FirstMarks qs p k i ↔ qs.findIdx? (fun q => (q.marks p).getD i false) = some k := by
  have getD (q : Query α) : (q.marks p).getD i false = true ↔ (q.marks p)[i]? = some true := by
    rw [List.getD_eq_getElem?_getD]
    cases (q.marks p)[i]? <;> simp
  rw [List.findIdx?_eq_some_iff_getElem]
  constructor
  · rintro ⟨⟨q, hq, mark⟩, first⟩
    obtain ⟨hk, rfl⟩ := List.getElem?_eq_some_iff.1 hq
    exact ⟨hk, (getD _).2 mark,
      fun j hj mark => first j hj _ (List.getElem?_eq_getElem (by omega)) ((getD _).1 mark)⟩
  · rintro ⟨hk, mark, first⟩
    refine ⟨⟨_, List.getElem?_eq_getElem hk, (getD _).1 mark⟩, fun j hj q hq mark => ?_⟩
    obtain ⟨_, rfl⟩ := List.getElem?_eq_some_iff.1 hq
    exact first j hj ((getD _).2 mark)

theorem rankAt_eq_some_iff : rankAt qs p i = some k ↔ FirstMarks qs p k i := by
  rw [firstMarks_iff, rankAt, priorities, List.getD_eq_getElem?_getD]
  by_cases hi : i < p.length
  · simp [List.getElem?_range hi, List.findIdx?_map, Function.comp_def]
  · have none : ∀ q ∈ qs, (q.marks p).getD i false = false := by
      intro q _
      have length := (Query.tells_marks p q).length
      rw [List.getD_eq_getElem?_getD, List.getElem?_eq_none (by omega)]
      rfl
    rw [List.findIdx?_eq_none_iff.2 none]
    simp [hi]

theorem rankAt_ne_none_iff : rankAt qs p i ≠ none ↔ IsMarked qs p i := by
  constructor
  · intro ranked
    obtain ⟨k, hk⟩ := Option.ne_none_iff_exists'.1 ranked
    obtain ⟨q, hq, mark⟩ := (rankAt_eq_some_iff.1 hk).marks
    exact ⟨q, List.mem_of_getElem? hq, mark⟩
  · rintro ⟨q, hq, mark⟩ none
    have first : ∃ k, qs.findIdx? (fun q => (q.marks p).getD i false) = some k := by
      refine Option.isSome_iff_exists.1 (List.findIdx?_isSome.trans ?_)
      exact List.any_eq_true.2 ⟨q, hq, by rw [List.getD_eq_getElem?_getD, mark]; rfl⟩
    obtain ⟨k, hk⟩ := first
    rw [rankAt_eq_some_iff.2 (firstMarks_iff.2 hk)] at none
    cases none

theorem lt_of_isMarked (h : IsMarked qs p i) : i < p.length := by
  obtain ⟨q, -, mark⟩ := h
  rw [← (Query.tells_marks p q).length]
  exact (List.getElem?_eq_some_iff.1 mark).1

theorem rankAt_lt (h : rankAt qs p i = some k) : k < qs.length := by
  obtain ⟨q, hq, -⟩ := (rankAt_eq_some_iff.1 h).marks
  exact (List.getElem?_eq_some_iff.1 hq).1

/-! ### Positions rearranged -/

theorem reorder_eq_positions (qs : List (Query α)) (p : Path α) :
    (reorder qs p).map some =
      (rearrange (rankAt qs p) qs.length (List.range p.length)).map (p[·]?) := by
  let rank (x : Step α × Nat) : Option Nat := rankAt qs p x.2
  have ranked : p.zip (priorities qs p) = p.zipIdx.map (fun x => (x.1, rank x)) := by
    refine List.ext_getElem (by simp [length_priorities]) (fun i hi _ => ?_)
    rw [List.length_zip, length_priorities, Nat.min_self] at hi
    simp [rank, rankAt, length_priorities, hi]
  have positions : List.range p.length = p.zipIdx.map Prod.snd := by
    rw [List.zipIdx_map_snd, List.range_eq_range']
  rw [reorder_eq_rearrange, ranked, rearrange_map, positions, rearrange_map, List.map_map,
    List.map_map, List.map_map]
  refine List.map_congr_left (fun x hx => ?_)
  have perm : (rearrange rank qs.length p.zipIdx).Perm p.zipIdx :=
    perm_rearrange (fun x _ k hk => rankAt_lt hk)
  exact (List.mem_zipIdx_iff_getElem?.1 (perm.mem_iff.1 hx)).symm

theorem rearrange_range (rank : Nat → Option Nat) (count n : Nat) :
    (∀ i < n, rank i = none) ∧ rearrange rank count (List.range n) = List.range n ∨
      ∃ a m, rank a ≠ none ∧ rank (a + m) ≠ none ∧
        (∀ i < n, i < a ∨ a + m < i → rank i = none) ∧
        rearrange rank count (List.range n) =
          List.range a ++ promote rank count (List.range' a (m + 1)) ++
            List.range' (a + (m + 1)) (n - (a + (m + 1))) := by
  rcases exists_isWindow rank (List.range n) with none | ⟨u, w, v, split, window⟩
  · exact .inl ⟨by simpa using none, rearrange_of_unmarked none⟩
  right
  have moved : rearrange rank count (u ++ w ++ v) = u ++ promote rank count w ++ v :=
    rearrange_of_isWindow window
  rw [← split] at moved
  rw [List.range_eq_range', List.append_assoc, List.range'_eq_append_iff] at split
  obtain ⟨a, ha, rfl, split⟩ := split
  obtain ⟨m, hm, rfl, rfl⟩ := List.range'_eq_append_iff.1 split.symm
  simp only [Nat.zero_add, Nat.mul_one] at moved window
  obtain ⟨around, ⟨x, first, markedFirst⟩, ⟨y, last, markedLast⟩⟩ := window
  cases m with
  | zero => simp at first
  | succ m =>
    rw [List.range'_succ, List.head?_cons, Option.mem_some_iff] at first
    rw [List.range'_concat, List.getLast?_concat, Nat.one_mul, Option.mem_some_iff] at last
    subst first last
    refine ⟨a, m, markedFirst, markedLast, fun i hi beyond => around i ?_, ?_⟩
    · simp only [List.mem_append, List.mem_range'_1]
      omega
    · rw [moved, ← List.range_eq_range', Nat.sub_sub]

theorem pairwise_promote {rank : β → Option Nat} {r s : β → β → Prop} {w : List β} (count : Nat)
    (before : w.Pairwise r)
    (earlier : ∀ x y k l, rank x = some k → rank y = some l → k < l → s x y)
    (same : ∀ x y k, rank x = some k → rank y = some k → r x y → s x y)
    (marked : ∀ x y, rank x ≠ none → rank y = none → s x y)
    (unmarked : ∀ x y, rank x = none → rank y = none → r x y → s x y) :
    (promote rank count w).Pairwise s := by
  have alike {o : Option Nat} (hs : ∀ x y, rank x = o → rank y = o → r x y → s x y) :
      (w.filter (fun x => rank x == o)).Pairwise s := by
    refine (before.filter _).imp_of_mem (fun hx hy => ?_)
    exact hs _ _ (by simpa using (List.mem_filter.1 hx).2) (by simpa using (List.mem_filter.1 hy).2)
  refine List.pairwise_append.2 ⟨List.pairwise_flatMap.2 ⟨fun k _ => ?_, ?_⟩, ?_, ?_⟩
  · exact alike (fun x y => same x y k)
  · refine List.pairwise_lt_range.imp (fun lt x hx y hy => ?_)
    have hx := (List.mem_filter.1 hx).2
    have hy := (List.mem_filter.1 hy).2
    exact earlier x y _ _ (by simpa using hx) (by simpa using hy) lt
  · have none : w.filter (isUnmarked rank) = w.filter (fun x => rank x == none) :=
      List.filter_congr (fun x _ => by cases h : rank x <;> simp [isUnmarked, h])
    rw [none]
    exact alike unmarked
  · intro x hx y hy
    obtain ⟨-, k, -, hk⟩ := mem_chosen.1 hx
    exact marked x y (by simp [hk]) (isUnmarked_iff.1 (List.mem_filter.1 hy).2)

theorem inWindow_iff {a m : Nat} (first : rankAt qs p a ≠ none) (last : rankAt qs p (a + m) ≠ none)
    (none : ∀ i < p.length, i < a ∨ a + m < i → rankAt qs p i = none) :
    InWindow qs p i ↔ a ≤ i ∧ i ≤ a + m := by
  have within {j : Nat} (mark : IsMarked qs p j) : a ≤ j ∧ j ≤ a + m := by
    by_contra out
    exact rankAt_ne_none_iff.2 mark (none j (lt_of_isMarked mark) (by omega))
  constructor
  · rintro ⟨⟨j, hj, mark⟩, l, hl, mark'⟩
    exact ⟨(within mark).1.trans hj, le_trans hl (within mark').2⟩
  · rintro ⟨above, below⟩
    exact ⟨⟨a, above, rankAt_ne_none_iff.1 first⟩, a + m, below, rankAt_ne_none_iff.1 last⟩

theorem pairwise_leads (qs : List (Query α)) (p : Path α) {w : List Nat}
    (rising : w.Pairwise (· < ·)) :
    (promote (rankAt qs p) qs.length w).Pairwise (Leads qs p) := by
  have unmarked {i : Nat} (hi : rankAt qs p i = none) : ¬ IsMarked qs p i :=
    fun mark => rankAt_ne_none_iff.2 mark hi
  refine pairwise_promote qs.length rising ?_ ?_ ?_ ?_
  · exact fun i j k l hi hj lt =>
      .earlierQuery (rankAt_eq_some_iff.1 hi) (rankAt_eq_some_iff.1 hj) lt
  · exact fun i j k hi hj lt => .sameQuery (rankAt_eq_some_iff.1 hi) (rankAt_eq_some_iff.1 hj) lt
  · exact fun i j hi hj => .marked (rankAt_ne_none_iff.1 hi) (unmarked hj)
  · exact fun i j hi hj lt => .unmarked (unmarked hi) (unmarked hj) lt

theorem isReordering_rearrange (qs : List (Query α)) (p : Path α) :
    IsReordering qs p (rearrange (rankAt qs p) qs.length (List.range p.length)) := by
  have perm : (rearrange (rankAt qs p) qs.length (List.range p.length)).Perm
      (List.range p.length) := perm_rearrange (fun i _ k hk => rankAt_lt hk)
  rcases rearrange_range (rankAt qs p) qs.length p.length with
    ⟨none, moved⟩ | ⟨a, m, first, last, none, moved⟩
  · have never (i : Nat) : ¬ InWindow qs p i := by
      rintro ⟨⟨j, -, mark⟩, -⟩
      exact rankAt_ne_none_iff.2 mark (none j (lt_of_isMarked mark))
    refine ⟨perm, fun i hi _ => by rw [moved, List.getElem?_range hi], ?_⟩
    exact List.pairwise_of_forall_mem_list (fun i _ j _ inside => absurd inside (never i))
  have window {i : Nat} : InWindow qs p i ↔ a ≤ i ∧ i ≤ a + m := inWindow_iff first last none
  have width : (promote (rankAt qs p) qs.length (List.range' a (m + 1))).length = m + 1 := by
    rw [(perm_promote (fun i _ k hk => rankAt_lt hk)).length_eq, List.length_range']
  refine ⟨perm, fun i hi out => ?_, ?_⟩
  · rw [window] at out
    rw [moved, List.append_assoc]
    by_cases hia : i < a
    · rw [List.getElem?_append_left (by simpa using hia), List.getElem?_range hia]
    · rw [List.getElem?_append_right (by simp; omega), List.length_range,
        List.getElem?_append_right (by omega), width, List.getElem?_range' (by omega)]
      congr 1
      omega
  · -- two positions in the window both stand in its middle part
    have above : ∀ i ∈ List.range a, ¬ InWindow qs p i := by
      intro i hi inside
      have := (window.1 inside).1
      exact absurd (List.mem_range.1 hi) (by omega)
    have below : ∀ i ∈ List.range' (a + (m + 1)) (p.length - (a + (m + 1))),
        ¬ InWindow qs p i := by
      intro i hi inside
      have := (window.1 inside).2
      have := (List.mem_range'_1.1 hi).1
      omega
    rw [moved]
    refine List.pairwise_append.2 ⟨List.pairwise_append.2 ⟨?_, ?_, ?_⟩, ?_, ?_⟩
    · exact List.pairwise_of_forall_mem_list (fun i hi _ _ inside => absurd inside (above i hi))
    · exact (pairwise_leads qs p List.pairwise_lt_range').imp (fun leads _ _ => leads)
    · exact fun i hi _ _ inside => absurd inside (above i hi)
    · exact List.pairwise_of_forall_mem_list (fun i hi _ _ inside => absurd inside (below i hi))
    · exact fun _ _ j hj _ inside => absurd inside (below j hj)

/-! ### Queries that look at one step at a time -/

theorem isLocal_of_mem {q : Query α} : ∀ {qs : List (Query α)}, Query.AreLocal qs → q ∈ qs →
    q.IsLocal
  | _ :: _, ⟨own, rest⟩, hq => by
    rcases List.mem_cons.1 hq with rfl | hq
    · exact own
    · exact isLocal_of_mem rest hq

theorem priorities_of_areLocal (p : Path α) (h : Query.AreLocal qs) :
    priorities qs p = p.map (fun s => rankOf qs s.data) := by
  refine List.ext_getElem (by simp [length_priorities]) (fun i hi hi' => ?_)
  rw [length_priorities] at hi
  have alike : ∀ q ∈ qs, (q.marks p).getD i false = q.selects p[i].data := by
    intro q hq
    rw [Query.marks_of_isLocal p (isLocal_of_mem h hq), List.getD_eq_getElem?_getD,
      List.getElem?_map, List.getElem?_eq_getElem hi]
    rfl
  have first : ∀ {l : List (Query α)}, (∀ q ∈ l, q ∈ qs) →
      l.findIdx? (fun q => (q.marks p).getD i false) =
        l.findIdx? (fun q => q.selects p[i].data) := by
    intro l
    induction l with
    | nil => intro _; rfl
    | cons q l ih =>
      intro sub
      obtain ⟨own, rest⟩ := List.forall_mem_cons.1 sub
      rw [List.findIdx?_cons, List.findIdx?_cons, alike q own, ih rest]
  simp only [priorities, List.getElem_map, List.getElem_range, List.findIdx?_map]
  exact first (fun _ hq => hq)

theorem reorder_of_areLocal (p : Path α) (h : Query.AreLocal qs) :
    reorder qs p = rearrange (fun s => rankOf qs s.data) qs.length p := by
  have ranked : p.zip (p.map (fun s => rankOf qs s.data)) =
      p.map (fun s => (s, rankOf qs s.data)) := List.map_prod_left_eq_zip.symm
  rw [reorder_eq_rearrange, priorities_of_areLocal p h, ranked, rearrange_map, List.map_map]
  exact List.map_id _

theorem rankOf_lt {d : α} (h : rankOf qs d = some k) : k < qs.length :=
  (List.findIdx?_eq_some_iff_getElem.1 h).1

/-- The steps of a reordered path are those of the path in the order the queries give their
positions, and queries that look at one step at a time change nothing a second time. -/
theorem reorder_settles (qs : List (Query α)) (p : Path α) :
    (∃ order, IsReordering qs p order ∧ (reorder qs p).map some = order.map (p[·]?)) ∧
      (Query.AreLocal qs → reorder qs (reorder qs p) = reorder qs p) := by
  refine ⟨⟨_, isReordering_rearrange qs p, reorder_eq_positions qs p⟩, fun h => ?_⟩
  rw [reorder_of_areLocal _ h, reorder_of_areLocal p h]
  exact rearrange_rearrange (fun s _ k hk => rankOf_lt hk)

/-- A key found in a chest in a hall: the key comes first, the chest is in the window. -/
theorem reorder_settles_keyFirst :
    let qs : List (Query String) := [.test (· == "key"), .all [.test (· == "hall"), .not (.any [])]]
    let p : Path String := [⟨"town", {}, 0⟩, ⟨"hall", {}, 1⟩, ⟨"chest", {}, 2⟩, ⟨"key", {}, 3⟩]
    Query.AreLocal qs ∧ reorder qs p = [⟨"town", {}, 0⟩, ⟨"key", {}, 3⟩, ⟨"hall", {}, 1⟩,
      ⟨"chest", {}, 2⟩] ∧ reorder qs (reorder qs p) = reorder qs p := by
  have isLocal : Query.AreLocal [.test (· == "key"), .all [.test (· == "hall"), .not (.any [])]] :=
    ⟨trivial, ⟨trivial, trivial, trivial⟩, trivial⟩
  exact ⟨isLocal, by decide, (reorder_settles _ _).2 isLocal⟩

end WorldMarkup.Path
