/-!
Sorting by a number keeps equals in order, and taking repeats out keeps the first of each. Main
statements: a sorted list that agrees with another on each number is that other list sorted; the
first occurrences of a list are those of its front and, of what follows, the ones not seen before.
-/

set_option autoImplicit false
set_option relaxedAutoImplicit false

namespace WorldMarkup

variable {β : Type}

section Sorting

variable {key : β → Nat}

def IsSorted (key : β → Nat) (l : List β) : Prop := l.Pairwise (fun a b => key a ≤ key b)

theorem isSorted_mergeSort (l : List β) :
    IsSorted key (l.mergeSort (fun a b => key a ≤ key b)) := by
  have h : (l.mergeSort (fun a b => key a ≤ key b)).Pairwise
      (fun a b => decide (key a ≤ key b) = true) :=
    List.pairwise_mergeSort
      (fun a b c hab hbc => by simp only [decide_eq_true_eq] at *; omega)
      (fun a b => by simp only [Bool.or_eq_true, decide_eq_true_eq]; omega) l
  exact h.imp (fun hab => of_decide_eq_true hab)

theorem filter_mergeSort (l : List β) (k : Nat) :
    (l.mergeSort (fun a b => key a ≤ key b)).filter (fun x => key x == k) =
      l.filter (fun x => key x == k) := by
  have perm := (List.mergeSort_perm l (fun a b => key a ≤ key b)).filter (fun x => key x == k)
  have equals : (l.filter (fun x => key x == k)).Pairwise
      (fun a b => decide (key a ≤ key b) = true) := by
    rw [List.pairwise_iff_forall_sublist]
    intro a b hab
    have ha : a ∈ l.filter (fun x => key x == k) := hab.subset (by simp)
    have hb : b ∈ l.filter (fun x => key x == k) := hab.subset (by simp)
    simp only [List.mem_filter, beq_iff_eq] at ha hb
    simp [ha.2, hb.2]
  have sub : (l.filter (fun x => key x == k)).Sublist
      (l.mergeSort (fun a b => key a ≤ key b)) :=
    List.sublist_mergeSort
      (fun a b c hab hbc => by simp only [decide_eq_true_eq] at *; omega)
      (fun a b => by simp only [Bool.or_eq_true, decide_eq_true_eq]; omega)
      equals List.filter_sublist
  have kept := sub.filter (fun x => key x == k)
  rw [List.filter_filter] at kept
  simp only [Bool.and_self] at kept
  exact (kept.eq_of_length perm.length_eq.symm).symm

theorem key_le_head {a : β} {l : List β} (h : IsSorted key (a :: l)) {b : β}
    (hb : b ∈ a :: l) : key a ≤ key b := by
  rcases List.mem_cons.1 hb with rfl | hb
  · exact Nat.le_refl _
  · exact (List.pairwise_cons.1 h).1 b hb

/-- Sorted lists that agree on each number are equal. -/
theorem eq_of_isSorted {l m : List β} (hl : IsSorted key l) (hm : IsSorted key m)
    (h : ∀ k, l.filter (fun x => key x == k) = m.filter (fun x => key x == k)) : l = m := by
  have mem (x : β) : x ∈ l ↔ x ∈ m := by
    have hx := congrArg (x ∈ ·) (h (key x))
    simpa [List.mem_filter] using hx
  induction l generalizing m with
  | nil =>
    cases m with
    | nil => rfl
    | cons b m => exact absurd ((mem b).2 (by simp)) (by simp)
  | cons a l ih =>
    cases m with
    | nil => exact absurd ((mem a).1 (by simp)) (by simp)
    | cons b m =>
      have hab : key a = key b :=
        Nat.le_antisymm (key_le_head hl ((mem b).2 (by simp)))
          (key_le_head hm ((mem a).1 (by simp)))
      have heads : a = b := by
        have hk := h (key a)
        simp only [List.filter_cons, beq_self_eq_true, if_true, hab] at hk
        exact (List.cons.inj hk).1
      subst heads
      have tails (k : Nat) :
          l.filter (fun x => key x == k) = m.filter (fun x => key x == k) := by
        have hk := h k
        simp only [List.filter_cons] at hk
        split at hk
        · exact (List.cons.inj hk).2
        · exact hk
      have memTails (x : β) : x ∈ l ↔ x ∈ m := by
        have hx := congrArg (x ∈ ·) (tails (key x))
        simpa [List.mem_filter] using hx
      rw [ih hl.of_cons hm.of_cons tails memTails]

theorem mergeSort_eq_of_isSorted {l m : List β} (hm : IsSorted key m)
    (h : ∀ k, m.filter (fun x => key x == k) = l.filter (fun x => key x == k)) :
    l.mergeSort (fun a b => key a ≤ key b) = m :=
  eq_of_isSorted (isSorted_mergeSort l) hm (fun k => by rw [filter_mergeSort, h])

theorem mergeSort_congr {key' : β → Nat} {l : List β} (h : ∀ x ∈ l, key x = key' x) :
    l.mergeSort (fun a b => key a ≤ key b) = l.mergeSort (fun a b => key' a ≤ key' b) := by
  have perm := List.mergeSort_perm l (fun a b => decide (key' a ≤ key' b))
  have own : ∀ x ∈ l.mergeSort (fun a b => key' a ≤ key' b), key x = key' x :=
    fun x hx => h x (perm.mem_iff.1 hx)
  have before : IsSorted key' (l.mergeSort (fun a b => key' a ≤ key' b)) := isSorted_mergeSort l
  have sorted : IsSorted key (l.mergeSort (fun a b => key' a ≤ key' b)) := by
    refine List.Pairwise.imp_of_mem ?_ before
    intro a b ha hb hab
    rw [own a ha, own b hb]
    exact hab
  apply mergeSort_eq_of_isSorted sorted
  intro k
  rw [List.filter_congr (fun x hx => by rw [own x hx]), filter_mergeSort]
  exact List.filter_congr (fun x hx => by rw [h x hx])

theorem mergeSort_append_left (l m : List β) :
    (l.mergeSort (fun a b => key a ≤ key b) ++ m).mergeSort (fun a b => key a ≤ key b) =
      (l ++ m).mergeSort (fun a b => key a ≤ key b) := by
  apply mergeSort_eq_of_isSorted (isSorted_mergeSort _)
  intro k
  rw [filter_mergeSort, List.filter_append, List.filter_append, filter_mergeSort]

theorem mergeSort_append_right (l m : List β) (test : β → Bool) :
    (l ++ (m.mergeSort (fun a b => key a ≤ key b)).filter test).mergeSort
        (fun a b => key a ≤ key b) =
      (l ++ m.filter test).mergeSort (fun a b => key a ≤ key b) := by
  apply mergeSort_eq_of_isSorted (isSorted_mergeSort _)
  intro k
  have taken (m : List β) : (m.filter test).filter (fun x => key x == k) =
      (m.filter (fun x => key x == k)).filter test := by
    rw [List.filter_filter, List.filter_filter]
    exact List.filter_congr (fun x _ => Bool.and_comm _ _)
  rw [filter_mergeSort, List.filter_append, List.filter_append, taken, taken, filter_mergeSort]

end Sorting

section Firsts

variable {γ : Type} [DecidableEq γ] {key : β → γ}

def firsts (key : β → γ) (seen : List γ) : List β → List β
  | [] => []
  | x :: rest => (if key x ∈ seen then [] else [x]) ++ firsts key (key x :: seen) rest

theorem firsts_append (seen : List γ) (l m : List β) :
    firsts key seen (l ++ m) =
      firsts key seen l ++ firsts key ((l.map key).reverse ++ seen) m := by
  induction l generalizing seen with
  | nil => rfl
  | cons x l ih => simp [firsts, ih]

theorem eraseDupsBy_filter (seen : List γ) (l : List β) :
    (l.filter (fun x => decide (key x ∉ seen))).eraseDupsBy (fun a b => key a == key b) =
      firsts key seen l := by
  induction l generalizing seen with
  | nil => rfl
  | cons x l ih =>
    by_cases hx : key x ∈ seen
    · have hsame : l.filter (fun y => decide (key y ∉ seen)) =
          l.filter (fun y => decide (key y ∉ key x :: seen)) := by
        refine List.filter_congr (fun y _ => ?_)
        by_cases hy : key y = key x
        · simp [hy, hx]
        · simp [hy]
      simp only [List.filter_cons, firsts, hx, if_true]
      simp only [not_true_eq_false, decide_false, Bool.false_eq_true, if_false, List.nil_append]
      rw [hsame, ih]
    · have hsame : (l.filter (fun y => decide (key y ∉ seen))).filter
            (fun y => (key y == key x) = false) =
          l.filter (fun y => decide (key y ∉ key x :: seen)) := by
        rw [List.filter_filter]
        refine List.filter_congr (fun y _ => ?_)
        by_cases hy : key y = key x <;> simp [hy]
      simp only [List.filter_cons, firsts, hx, not_false_eq_true, decide_true, if_true, if_false]
      rw [List.eraseDupsBy_cons, hsame, ih]
      rfl

theorem eraseDupsBy_eq_firsts (l : List β) :
    l.eraseDupsBy (fun a b => key a == key b) = firsts key [] l := by
  have hall : l.filter (fun x => decide (key x ∉ ([] : List γ))) = l :=
    List.filter_eq_self.2 (by simp)
  rw [← eraseDupsBy_filter [] l, hall]

theorem mem_of_mem_firsts {seen : List γ} {l : List β} {x : β} (h : x ∈ firsts key seen l) :
    x ∈ l ∧ key x ∉ seen := by
  induction l generalizing seen with
  | nil => simp [firsts] at h
  | cons y l ih =>
    simp only [firsts, List.mem_append] at h
    rcases h with h | h
    · split at h
      · simp at h
      · rename_i hy
        obtain rfl := List.mem_singleton.1 h
        exact ⟨by simp, hy⟩
    · obtain ⟨hl, hseen⟩ := ih h
      exact ⟨by simp [hl], fun hx => hseen (by simp [hx])⟩

theorem exists_mem_firsts {seen : List γ} {l : List β} {x : β} (hx : x ∈ l)
    (hseen : key x ∉ seen) : ∃ y ∈ firsts key seen l, key y = key x := by
  induction l generalizing seen with
  | nil => simp at hx
  | cons z l ih =>
    by_cases hz : key z = key x
    · exact ⟨z, by simp [firsts, hz, hseen], hz⟩
    · have hxl : x ∈ l := by
        rcases List.mem_cons.1 hx with rfl | h
        · exact absurd rfl hz
        · exact h
      have hseen' : key x ∉ key z :: seen := by simpa [hseen] using fun h => hz h.symm
      obtain ⟨y, hy, hkey⟩ := ih hxl hseen'
      exact ⟨y, by simp [firsts, hy], hkey⟩

theorem nodup_firsts (seen : List γ) (l : List β) : ((firsts key seen l).map key).Nodup := by
  induction l generalizing seen with
  | nil => simp [firsts]
  | cons x l ih =>
    simp only [firsts, List.map_append]
    split
    · simpa using ih _
    · simp only [List.map_cons, List.map_nil, List.singleton_append, List.nodup_cons]
      refine ⟨fun h => ?_, ih _⟩
      obtain ⟨y, hy, hkey⟩ := List.mem_map.1 h
      exact (mem_of_mem_firsts hy).2 (by simp [hkey])

end Firsts

end WorldMarkup
