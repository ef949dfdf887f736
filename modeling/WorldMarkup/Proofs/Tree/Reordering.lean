import Mathlib.Data.List.TakeWhile
import WorldMarkup.Tree.Outline

/-!
Changing the order of the steps on a path. Between the first and the last marked item the marked
ones come to the front, in the order of their ranks. Main statements: no item is lost or made up;
what stands before the first marked item or after the last stays; and a second time nothing
changes.
-/

set_option autoImplicit false
set_option relaxedAutoImplicit false

namespace WorldMarkup.Path

variable {α β γ : Type}

section Ranks

variable (rank : β → Option Nat) (count : Nat)

def isUnmarked (x : β) : Bool := (rank x).isNone

/-- The marked items, those of smaller rank before the others. -/
def chosen (l : List β) : List β :=
  (List.range count).flatMap (fun k => l.filter (fun x => rank x == some k))

def promote (l : List β) : List β := chosen rank count l ++ l.filter (isUnmarked rank)

/-- From the first marked item to the last the marked ones come first. -/
def rearrange (l : List β) : List β :=
  let above := l.takeWhile (isUnmarked rank)
  let below := (l.reverse.takeWhile (isUnmarked rank)).reverse
  let window := (l.drop above.length).take (l.length - above.length - below.length)
  above ++ promote rank count window ++ l.drop (above.length + window.length)

/-- The window between the first marked item and the last, and what stands around it. -/
structure IsWindow (u w v : List β) : Prop where
  around : ∀ x ∈ u ++ v, rank x = none
  first : ∃ x ∈ w.head?, rank x ≠ none
  last : ∃ x ∈ w.getLast?, rank x ≠ none

end Ranks

variable {rank : β → Option Nat} {count : Nat} {l u w v : List β}

theorem isUnmarked_iff {x : β} : isUnmarked rank x = true ↔ rank x = none := by
  simp [isUnmarked]

theorem reorder_eq_rearrange (qs : List (Query α)) (p : Path α) :
    reorder qs p = (rearrange Prod.snd qs.length (p.zip (priorities qs p))).map Prod.fst := by
  rw [reorder, rearrange, promote, ← List.append_assoc]
  rfl

theorem chosen_succ (count : Nat) (l : List β) :
    chosen rank (count + 1) l =
      chosen rank count l ++ l.filter (fun x => rank x == some count) := by
  rw [chosen, List.range_succ, List.flatMap_append, List.flatMap_singleton, chosen]

theorem mem_chosen {x : β} : x ∈ chosen rank count l ↔ x ∈ l ∧ ∃ k < count, rank x = some k := by
  simp only [chosen, List.mem_flatMap, List.mem_range, List.mem_filter, beq_iff_eq]
  constructor
  · rintro ⟨k, hk, hx, rank⟩
    exact ⟨hx, k, hk, rank⟩
  · rintro ⟨hx, k, hk, rank⟩
    exact ⟨k, hk, hx, rank⟩

theorem filter_chosen {k : Nat} (hk : k < count) :
    (chosen rank count l).filter (fun x => rank x == some k) =
      l.filter (fun x => rank x == some k) := by
  induction count with
  | zero => omega
  | succ count ih =>
    rw [chosen_succ, List.filter_append, List.filter_filter]
    by_cases last : k = count
    · subst last
      have none : (chosen rank k l).filter (fun x => rank x == some k) = [] := by
        refine List.filter_eq_nil_iff.2 (fun x hx => ?_)
        obtain ⟨-, j, hj, rank⟩ := mem_chosen.1 hx
        simp only [rank, beq_iff_eq, Option.some.injEq]
        omega
      rw [none, List.nil_append]
      exact List.filter_congr (fun x _ => Bool.and_self _)
    · have none : l.filter (fun x => rank x == some k && rank x == some count) = [] := by
        refine List.filter_eq_nil_iff.2 (fun x _ => ?_)
        simp only [Bool.and_eq_true, beq_iff_eq, not_and]
        rintro rank
        simpa [rank] using last
      rw [ih (by omega), none, List.append_nil]

theorem chosen_chosen : chosen rank count (chosen rank count l) = chosen rank count l := by
  have each : (List.range count).map
      (fun k => (chosen rank count l).filter (fun x => rank x == some k)) =
        (List.range count).map (fun k => l.filter (fun x => rank x == some k)) :=
    List.map_congr_left (fun k hk => filter_chosen (List.mem_range.1 hk))
  rw [chosen, List.flatMap_def, each, ← List.flatMap_def, chosen]

theorem promote_chosen : promote rank count (chosen rank count l) = chosen rank count l := by
  have none : (chosen rank count l).filter (isUnmarked rank) = [] := by
    refine List.filter_eq_nil_iff.2 (fun x hx => ?_)
    obtain ⟨-, k, -, rank⟩ := mem_chosen.1 hx
    simp [isUnmarked, rank]
  rw [promote, chosen_chosen, none, List.append_nil]

theorem promote_map (f : β → γ) (rank : γ → Option Nat) (l : List β) :
    promote rank count (l.map f) = (promote (fun x => rank (f x)) count l).map f := by
  simp only [promote, chosen, List.filter_map, List.map_append, List.map_flatMap]
  rfl

theorem exists_first (rank : β → Option Nat) (l : List β) :
    (∀ x ∈ l, rank x = none) ∨
      ∃ u x r, l = u ++ x :: r ∧ (∀ y ∈ u, rank y = none) ∧ rank x ≠ none := by
  induction l with
  | nil => exact .inl (by simp)
  | cons x l ih =>
    by_cases marked : rank x = none
    · rcases ih with none | ⟨u, y, r, rfl, none, marked'⟩
      · exact .inl (List.forall_mem_cons.2 ⟨marked, none⟩)
      · exact .inr ⟨x :: u, y, r, rfl, List.forall_mem_cons.2 ⟨marked, none⟩, marked'⟩
    · exact .inr ⟨[], x, l, rfl, by simp, marked⟩

theorem exists_isWindow (rank : β → Option Nat) (l : List β) :
    (∀ x ∈ l, rank x = none) ∨ ∃ u w v, l = u ++ w ++ v ∧ IsWindow rank u w v := by
  rcases exists_first rank l with none | ⟨u, x, r, rfl, above, first⟩
  · exact .inl none
  right
  rcases exists_first rank (x :: r).reverse with none | ⟨v, y, w, split, below, last⟩
  · exact absurd (none x (by simp)) first
  have whole : x :: r = (w.reverse ++ [y]) ++ v.reverse := by
    have := congrArg List.reverse split
    simpa using this
  refine ⟨u, w.reverse ++ [y], v.reverse, by rw [whole, List.append_assoc u], ?_, ?_, ?_⟩
  · intro z hz
    rcases List.mem_append.1 hz with hz | hz
    · exact above z hz
    · exact below z (List.mem_reverse.1 hz)
  · refine ⟨x, ?_, first⟩
    have head := congrArg List.head? whole
    rw [List.head?_cons, List.head?_append, Option.or_of_isSome (by simp)] at head
    exact head.symm
  · exact ⟨y, by simp, last⟩

theorem rearrange_of_unmarked (h : ∀ x ∈ l, rank x = none) : rearrange rank count l = l := by
  have all : l.takeWhile (isUnmarked rank) = l :=
    List.takeWhile_eq_self_iff.2 (fun x hx => isUnmarked_iff.2 (h x hx))
  simp [rearrange, promote, chosen, all]

theorem rearrange_of_isWindow (h : IsWindow rank u w v) :
    rearrange rank count (u ++ w ++ v) = u ++ promote rank count w ++ v := by
  obtain ⟨around, ⟨x, first, marked⟩, ⟨y, last, marked'⟩⟩ := h
  obtain ⟨none, none'⟩ := List.forall_mem_append.1 around
  have above : (u ++ w ++ v).takeWhile (isUnmarked rank) = u := by
    rw [List.append_assoc, List.takeWhile_append_of_pos
      (fun z hz => isUnmarked_iff.2 (none z hz))]
    obtain ⟨w, rfl⟩ := List.head?_eq_some_iff.1 first
    simp [isUnmarked, marked]
  have below : ((u ++ w ++ v).reverse.takeWhile (isUnmarked rank)).reverse = v := by
    rw [List.reverse_append, List.takeWhile_append_of_pos
      (fun z hz => isUnmarked_iff.2 (none' z (List.mem_reverse.1 hz)))]
    obtain ⟨w, rfl⟩ := List.getLast?_eq_some_iff.1 last
    simp [isUnmarked, marked']
  have length : (u ++ w ++ v).length - u.length - v.length = w.length := by
    simp only [List.length_append]
    omega
  simp only [rearrange, above, below, length]
  simp

theorem perm_filter_append {p q r : β → Bool} (cover : ∀ x ∈ l, r x = (p x || q x))
    (apart : ∀ x ∈ l, p x = true → q x = false) :
    (l.filter p ++ l.filter q).Perm (l.filter r) := by
  have left : (l.filter r).filter p = l.filter p := by
    rw [List.filter_filter]
    exact List.filter_congr (fun x hx => by cases hp : p x <;> simp [cover x hx, hp])
  have right : (l.filter r).filter (fun x => !p x) = l.filter q := by
    rw [List.filter_filter]
    refine List.filter_congr (fun x hx => ?_)
    have := apart x hx
    cases hp : p x <;> simp_all [cover x hx]
  have perm := List.filter_append_perm p (l.filter r)
  rwa [left, right] at perm

theorem perm_promote (ranked : ∀ x ∈ l, ∀ k ∈ rank x, k < count) :
    (promote rank count l).Perm l := by
  have upTo (bound : Nat) : (chosen rank bound l).Perm
      (l.filter (fun x => (rank x).any (fun k => decide (k < bound)))) := by
    induction bound with
    | zero => simp [chosen]
    | succ k ih =>
      rw [chosen_succ]
      refine (ih.append_right _).trans (perm_filter_append (fun x _ => ?_) (fun x _ hx => ?_))
      · cases rank x with
        | none => rfl
        | some j =>
          rw [Bool.eq_iff_iff]
          simp only [Option.any_some, Bool.or_eq_true, decide_eq_true_eq, beq_iff_eq,
            Option.some.injEq]
          exact Nat.lt_succ_iff_lt_or_eq
      · cases hr : rank x <;> simp_all
        omega
  have all : (l.filter (fun x => (rank x).any (fun k => decide (k < count))) ++
      l.filter (isUnmarked rank)).Perm (l.filter (fun _ => true)) := by
    refine perm_filter_append (fun x hx => ?_) (fun x _ hx => ?_)
    · cases hr : rank x with
      | none => simp [isUnmarked, hr]
      | some k => simp [ranked x hx k hr]
    · cases hr : rank x <;> simp_all [isUnmarked]
  rw [List.filter_eq_self.2 (fun _ _ => rfl)] at all
  exact ((upTo count).append_right _).trans all

theorem perm_rearrange (ranked : ∀ x ∈ l, ∀ k ∈ rank x, k < count) :
    (rearrange rank count l).Perm l := by
  rcases exists_isWindow rank l with none | ⟨u, w, v, rfl, window⟩
  · rw [rearrange_of_unmarked none]
  · rw [rearrange_of_isWindow window]
    exact ((perm_promote (fun x hx => ranked x (by simp [hx]))).append_left u).append_right v

theorem rearrange_map (f : β → γ) (rank : γ → Option Nat) (l : List β) :
    rearrange rank count (l.map f) = (rearrange (fun x => rank (f x)) count l).map f := by
  rcases exists_isWindow (fun x => rank (f x)) l with none | ⟨u, w, v, rfl, window⟩
  · rw [rearrange_of_unmarked none, rearrange_of_unmarked (by simpa using none)]
  · obtain ⟨around, ⟨x, first, marked⟩, ⟨y, last, marked'⟩⟩ := window
    have mapped : IsWindow rank (u.map f) (w.map f) (v.map f) := by
      refine ⟨?_, ⟨f x, ?_, marked⟩, ⟨f y, ?_, marked'⟩⟩
      · rw [← List.map_append]
        exact List.forall_mem_map.2 around
      · rw [List.head?_map, first]
        rfl
      · rw [List.getLast?_map, last]
        rfl
    rw [List.map_append, List.map_append, rearrange_of_isWindow mapped,
      rearrange_of_isWindow ⟨around, ⟨x, first, marked⟩, ⟨y, last, marked'⟩⟩, promote_map,
      List.map_append, List.map_append]

theorem IsWindow.chosen (window : IsWindow rank u w v) (ranked : ∀ x ∈ w, ∀ k ∈ rank x, k < count) :
    IsWindow rank u (chosen rank count w) (w.filter (isUnmarked rank) ++ v) := by
  have marked : ∀ x ∈ Path.chosen rank count w, rank x ≠ none := by
    intro x hx
    obtain ⟨-, k, -, rank⟩ := mem_chosen.1 hx
    simp [rank]
  obtain ⟨x, first, own⟩ := window.first
  have some : Path.chosen rank count w ≠ [] := by
    obtain ⟨k, hk⟩ := Option.ne_none_iff_exists'.1 own
    have hx : x ∈ w := List.mem_of_mem_head? first
    exact List.ne_nil_of_mem (mem_chosen.2 ⟨hx, k, ranked x hx k hk, hk⟩)
  refine ⟨?_, ⟨_, List.head?_eq_some_head some, ?_⟩, ⟨_, List.getLast?_eq_some_getLast some, ?_⟩⟩
  · intro y hy
    simp only [List.mem_append, List.mem_filter, isUnmarked_iff] at hy
    rcases hy with hy | ⟨-, hy⟩ | hy
    · exact window.around y (List.mem_append_left _ hy)
    · exact hy
    · exact window.around y (List.mem_append_right _ hy)
  · exact marked _ (List.head_mem some)
  · exact marked _ (List.getLast_mem some)

theorem rearrange_rearrange (ranked : ∀ x ∈ l, ∀ k ∈ rank x, k < count) :
    rearrange rank count (rearrange rank count l) = rearrange rank count l := by
  rcases exists_isWindow rank l with none | ⟨u, w, v, rfl, window⟩
  · rw [rearrange_of_unmarked none, rearrange_of_unmarked none]
  · have settled := window.chosen (fun x hx => ranked x (by simp [hx]))
    have whole : u ++ promote rank count w ++ v =
        u ++ chosen rank count w ++ (w.filter (isUnmarked rank) ++ v) := by simp [promote]
    rw [rearrange_of_isWindow window, whole, rearrange_of_isWindow settled, promote_chosen]

theorem rearrange_concat (l : List β) {x : β} (unmarked : rank x = none) :
    rearrange rank count (l ++ [x]) = rearrange rank count l ++ [x] := by
  rcases exists_isWindow rank l with none | ⟨u, w, v, rfl, window⟩
  · rw [rearrange_of_unmarked none, rearrange_of_unmarked]
    simpa [or_imp, forall_and, unmarked] using none
  · have longer : IsWindow rank u w (v ++ [x]) := by
      refine ⟨?_, window.first, window.last⟩
      simpa [or_imp, forall_and, unmarked, and_assoc] using window.around
    rw [List.append_assoc _ v, rearrange_of_isWindow longer, rearrange_of_isWindow window,
      List.append_assoc _ v]

theorem priorities_lt {qs : List (Query α)} {p : Path α} {k : Nat}
    (h : some k ∈ priorities qs p) : k < qs.length := by
  obtain ⟨i, -, first⟩ := List.mem_map.1 h
  have lt := (List.findIdx?_eq_some_iff_findIdx_eq.1 first).1
  rwa [List.length_map] at lt

theorem perm_rearrange_priorities (qs : List (Query α)) (p : Path α) :
    (rearrange Prod.snd qs.length (p.zip (priorities qs p))).Perm (p.zip (priorities qs p)) := by
  refine perm_rearrange (fun x hx k hk => ?_)
  have priority : x.2 ∈ priorities qs p := (List.of_mem_zip hx).2
  rw [Option.mem_def.1 hk] at priority
  exact priorities_lt priority

theorem mem_of_mem_reorder {qs : List (Query α)} {p : Path α} {s : Step α}
    (h : s ∈ reorder qs p) : s ∈ p := by
  rw [reorder_eq_rearrange] at h
  obtain ⟨x, hx, rfl⟩ := List.mem_map.1 h
  exact (List.of_mem_zip ((perm_rearrange_priorities qs p).mem_iff.1 hx)).1

end WorldMarkup.Path
