import Mathlib.Algebra.Ring.Nat
import Mathlib.Tactic.SplitIfs
import WorldMarkup.Proofs.Tree.Restoring

/-!
The paths of a growing forest, under the numbers it has. Taking paths off one end, and putting
leaves in the place of the last one taken off, leaves the paths of a forest again, which has no node
more than that: whatever the nodes are weighed by, leaves aside it weighs no more than before. Main
statements: what is left at either end are the paths of such a forest, and laying in the paths of a
forest with numbers of its own sets it behind what has grown before.
-/

set_option autoImplicit false
set_option relaxedAutoImplicit false

namespace WorldMarkup

variable {α κ : Type}

mutual

def Node.total (w : α → Nat) : Node α → Nat
  | ⟨d, _, cs⟩ => w d + Forest.total w cs

def Forest.total (w : α → Nat) : Forest α → Nat
  | [] => 0
  | n :: rest => n.total w + Forest.total w rest

end

mutual

def Node.mirror : Node α → Node α
  | ⟨d, e, cs⟩ => ⟨d, e, Forest.mirror cs⟩

def Forest.mirror : Forest α → Forest α
  | [] => []
  | n :: rest => Forest.mirror rest ++ [n.mirror]

end

mutual

/-- The paths of a growing tree, under the numbers it has. -/
def Node.routes : Node (α × Nat) → List (Path α)
  | ⟨(d, number), e, cs⟩ =>
    if cs.isEmpty then [[⟨d, e, number⟩]]
    else (Forest.routes cs).map (⟨d, e, number⟩ :: ·)

/-- The paths of a growing forest, under the numbers it has. -/
def Forest.routes : Growth α → List (Path α)
  | [] => []
  | n :: rest => n.routes ++ Forest.routes rest

end

namespace Forest

section

variable {w : α → Nat}

theorem total_cons (d : α) (e : Extra) (cs rest : Forest α) :
    total w (⟨d, e, cs⟩ :: rest) = w d + total w cs + total w rest := rfl

theorem total_append (t u : Forest α) : total w (t ++ u) = total w t + total w u := by
  induction t with
  | nil => simp [total]
  | cons n t ih => rw [List.cons_append, total, total, ih, Nat.add_assoc]

theorem total_mirror (t : Forest α) : total w (mirror t) = total w t := by
  induction t using Forest.induction with
  | nil => rfl
  | cons d e cs rest hcs hrest =>
    rw [mirror, total_append, hrest, total_cons, ← hcs, Node.mirror, total_cons, total,
      Nat.add_zero, Nat.add_comm]

theorem isEmpty_mirror (t : Forest α) : (mirror t).isEmpty = t.isEmpty := by
  cases t <;> simp [mirror]

end

def routesBelow (cs : Growth α) : List (Path α) := if cs.isEmpty then [[]] else routes cs

section

variable {g h : Growth α}

theorem routes_cons (d : α) (number : Nat) (e : Extra) (cs rest : Growth α) :
    routes (⟨(d, number), e, cs⟩ :: rest) =
      (routesBelow cs).map (⟨d, e, number⟩ :: ·) ++ routes rest := by
  rw [routes, Node.routes, routesBelow]
  split <;> simp

theorem routes_append : routes (g ++ h) = routes g ++ routes h := by
  induction g with
  | nil => rfl
  | cons n g ih => rw [List.cons_append, routes, routes, ih, List.append_assoc]

theorem routesBelow_ne_nil (cs : Growth α) : routesBelow cs ≠ [] := by
  induction cs using Forest.induction with
  | nil => simp [routesBelow]
  | cons d e cs rest hcs hrest =>
    rcases d with ⟨d, number⟩
    intro none
    have none : routes (⟨(d, number), e, cs⟩ :: rest) = [] := none
    rw [routes_cons, List.append_eq_nil_iff, List.map_eq_nil_iff] at none
    exact hcs none.1

theorem routes_mirror (g : Growth α) : routes (mirror g) = (routes g).reverse := by
  induction g using Forest.induction with
  | nil => rfl
  | cons d e cs rest hcs hrest =>
    rcases d with ⟨d, number⟩
    have below : routesBelow (mirror cs) = (routesBelow cs).reverse := by
      rw [routesBelow, routesBelow, isEmpty_mirror, hcs]
      split <;> rfl
    rw [mirror, routes_append, hrest, Node.mirror, routes_cons, below, routes_cons,
      List.reverse_append, List.map_reverse]
    simp [routes]

theorem nil_notMem_routes (g : Growth α) : [] ∉ routes g := by
  induction g using Forest.induction with
  | nil => simp [routes]
  | cons d e cs rest _ hrest =>
    rcases d with ⟨d, number⟩
    simp [routes_cons, hrest]

theorem routes_numbered (first : Nat) (t : Forest α) :
    routes (numbered first t) = pathsFrom first t := by
  induction t using Forest.induction generalizing first with
  | nil => rfl
  | cons d e cs rest hcs hrest =>
    have below : routesBelow (numbered (first + 1) cs) = rests (first + 1) cs := by
      rw [routesBelow, rests, hcs]
      cases cs <;> rfl
    rw [numbered, Node.numbered, routes_cons, below, hrest, pathsFrom, paths_eq_rests]

theorem total_eq_zero {w : α × Nat → Nat}
    (h : ∀ p ∈ routes g, ∀ s ∈ p, w (s.data, s.origin) = 0) : total w g = 0 := by
  induction g using Forest.induction with
  | nil => rfl
  | cons d e cs rest hcs hrest =>
    rcases d with ⟨d, number⟩
    rw [routes_cons] at h
    obtain ⟨own, beside⟩ := List.forall_mem_append.1 h
    have own : ∀ p ∈ routesBelow cs, w (d, number) = 0 ∧ ∀ s ∈ p, w (s.data, s.origin) = 0 :=
      fun p hp => List.forall_mem_cons.1 (own _ (List.mem_map_of_mem hp))
    obtain ⟨first, hfirst⟩ := List.exists_mem_of_ne_nil _ (routesBelow_ne_nil cs)
    have below : total w cs = 0 := by
      cases cs with
      | nil => rfl
      | cons n cs => exact hcs fun p hp => (own p hp).2
    rw [total_cons, (own first hfirst).1, below, hrest beside]

def bears (k : Nat) (x : α × Nat) : Nat := if x.2 = k then 1 else 0

theorem total_bears_numbered (k first : Nat) (t : Forest α) :
    total (bears k) (numbered first t) =
      if first ≤ k ∧ k < first + size t then 1 else 0 := by
  induction t using Forest.induction generalizing first with
  | nil =>
    rw [numbered, total, size]
    split_ifs <;> omega
  | cons d e cs rest hcs hrest =>
    rw [numbered, Node.numbered, total_cons, hcs, hrest, bears, size, size_eq]
    split_ifs <;> omega

/-! ### Paths taken off an end -/

def ofLeaves (leaves : List (Step α)) : Growth α :=
  leaves.map (fun l => ⟨(l.data, l.origin), l.extra, []⟩)

theorem routes_ofLeaves (leaves : List (Step α)) :
    routes (ofLeaves leaves) = leaves.map (fun l => [l]) := by
  induction leaves with
  | nil => rfl
  | cons l leaves ih =>
    rw [ofLeaves, List.map_cons, routes_cons, List.map_cons, ← ih]
    rfl

theorem total_ofLeaves (w : α × Nat → Nat) (leaves : List (Step α)) :
    total w (ofLeaves leaves) = (leaves.map (fun l => w (l.data, l.origin))).sum := by
  induction leaves with
  | nil => rfl
  | cons l leaves ih =>
    rw [ofLeaves, List.map_cons, total_cons, List.map_cons, List.sum_cons, ← ih]
    simp [total, ofLeaves]

theorem split_around {β : Type} {xs ys front rest : List β} {a : β}
    (h : xs ++ ys = front ++ a :: rest) :
    (∃ rest', xs = front ++ a :: rest' ∧ rest = rest' ++ ys) ∨
      ∃ front', front = xs ++ front' ∧ ys = front' ++ a :: rest := by
  rcases List.append_eq_append_iff.1 h with ⟨front', hfront, hys⟩ | ⟨inner, hxs, hinner⟩
  · exact .inr ⟨front', hfront, hys⟩
  · rcases List.cons_eq_append_iff.1 hinner with ⟨rfl, hys⟩ | ⟨rest', rfl, hrest⟩
    · exact .inr ⟨[], by simpa using hxs.symm, hys⟩
    · exact .inl ⟨rest', hxs, hrest⟩

theorem eq_of_singleton_eq_append {β : Type} {a b : β} {front rest : List β}
    (h : [b] = front ++ a :: rest) : front = [] ∧ a = b ∧ rest = [] := by
  rcases List.cons_eq_append_iff.1 h with ⟨rfl, h⟩ | ⟨front', -, h⟩
  · obtain ⟨rfl, rfl⟩ := List.cons.inj h
    exact ⟨rfl, rfl, rfl⟩
  · simp at h

theorem exists_routes_root (s : Step α) (below : Growth α) :
    ∃ g', routes g' = (routes below).map (s :: ·) ∧
      ∀ w : α × Nat → Nat, total w g' ≤ w (s.data, s.origin) + total w below := by
  cases below with
  | nil => exact ⟨[], rfl, fun w => Nat.zero_le _⟩
  | cons m below =>
    refine ⟨[⟨(s.data, s.origin), s.extra, m :: below⟩], ?_, fun w => ?_⟩
    · rw [routes_cons]
      exact List.append_nil _
    · exact Nat.le_refl _

/-- Taking off the first paths of a forest, with leaves in the place of the last one taken off,
leaves the paths of a forest. -/
theorem exists_routes_drop {front rest : List (Path α)} {q : Path α} {s : Step α}
    (h : routes g = front ++ (q ++ [s]) :: rest) (leaves : List (Step α)) :
    ∃ g', routes g' = leaves.map (fun l => q ++ [l]) ++ rest ∧
      ∀ w : α × Nat → Nat, total w g' + w (s.data, s.origin) ≤
        total w g + (leaves.map (fun l => w (l.data, l.origin))).sum := by
  induction g using Forest.induction generalizing front rest q with
  | nil => simp [routes] at h
  | cons d e cs beside hcs hbeside =>
    rcases d with ⟨d, number⟩
    rw [routes_cons] at h
    rcases split_around h with ⟨inner, hroot, rfl⟩ | ⟨front', rfl, hbehind⟩
    · cases cs with
      | nil =>
        -- the root is the leaf that goes
        have one : [[⟨d, e, number⟩]] = front ++ (q ++ [s]) :: inner := hroot
        obtain ⟨rfl, last, rfl⟩ := eq_of_singleton_eq_append one
        obtain ⟨rfl, rfl, -⟩ := eq_of_singleton_eq_append last.symm
        refine ⟨ofLeaves leaves ++ beside, ?_, fun w => ?_⟩
        · simp [routes_append, routes_ofLeaves]
        · rw [total_append, total_ofLeaves, total_cons]
          dsimp only
          omega
      | cons n cs =>
        obtain ⟨front', last, hbelow, rfl, hlast⟩ := List.map_eq_append_iff.1 hroot
        obtain ⟨p, inner', rfl, hp, rfl⟩ := List.map_eq_cons_iff.1 hlast
        have hbelow : routes (n :: cs) = front' ++ p :: inner' := hbelow
        rcases q with _ | ⟨x, q⟩
        · obtain rfl : p = [] := (List.cons.inj hp).2
          exact absurd (hbelow ▸ by simp) (nil_notMem_routes (n :: cs))
        obtain ⟨rfl, rfl⟩ := List.cons.inj hp
        obtain ⟨below, routes', total'⟩ := hcs hbelow
        obtain ⟨root, rootRoutes, rootTotal⟩ := exists_routes_root ⟨d, e, number⟩ below
        refine ⟨root ++ beside, ?_, fun w => ?_⟩
        · rw [routes_append, rootRoutes, routes', List.map_append, List.append_assoc, List.map_map]
          rfl
        · have inside := total' w
          have whole : total w root ≤ w (d, number) + total w below := rootTotal w
          rw [total_append, total_cons]
          omega
    · obtain ⟨g', routes', total'⟩ := hbeside hbehind
      refine ⟨g', routes', fun w => ?_⟩
      have := total' w
      rw [total_cons]
      omega

/-- Taking off the last paths of a forest, with leaves in the place of the first one taken off,
leaves the paths of a forest. -/
theorem exists_routes_take {front rest : List (Path α)} {q : Path α} {s : Step α}
    (h : routes g = front ++ (q ++ [s]) :: rest) (leaves : List (Step α)) :
    ∃ g', routes g' = front ++ leaves.map (fun l => q ++ [l]) ∧
      ∀ w : α × Nat → Nat, total w g' + w (s.data, s.origin) ≤
        total w g + (leaves.map (fun l => w (l.data, l.origin))).sum := by
  have turned : routes (mirror g) = rest.reverse ++ (q ++ [s]) :: front.reverse := by
    rw [routes_mirror, h]
    simp
  obtain ⟨g', routes', total'⟩ := exists_routes_drop turned leaves.reverse
  refine ⟨mirror g', ?_, fun w => ?_⟩
  · rw [routes_mirror, routes']
    simp [List.map_reverse]
  · have := total' w
    rw [total_mirror, List.map_reverse, List.sum_reverse] at this
    rwa [total_mirror]

end

end Forest

namespace Growth

/-- Laying in the paths of a settled forest, whose numbers are used once, sets it behind what has
grown before. -/
theorem insertAll_routes [DecidableEq κ] {r : Rules α κ}
    (merges : ∀ s : Step α, r.combine s s = (s.data, s.extra)) (unranked : r.ranking = [])
    {g h : Growth α}
    (settled : Forest.SettledAfter r (g.reverse.map (fun n => n.data.1)) (Growth.forest h))
    (once : ∀ k, Forest.total (Forest.bears k) (g ++ h) ≤ 1) :
    insertAll r (Forest.routes h) g = g ++ h := by
  induction h using Forest.induction generalizing g with
  | nil => simp [Forest.routes, insertAll_nil]
  | cons d e cs rest hcs hrest =>
    rcases d with ⟨d, number⟩
    obtain ⟨unfound, below, beside⟩ := settled
    simp only [Forest.total_append, Forest.total_cons] at once
    have inside : insertAll r (Forest.routesBelow cs) [] = cs := by
      cases cs with
      | nil => rfl
      | cons n cs =>
        refine hcs below fun k => ?_
        have := once k
        rw [List.nil_append]
        omega
    have strange : ∀ n ∈ g, n.data.2 ≠ number := by
      intro n hn own
      obtain ⟨before, after, rfl⟩ := List.append_of_mem hn
      rcases n with ⟨⟨d', number'⟩, e', cs'⟩
      have := once number
      simp only at own
      simp [Forest.total_append, Forest.total_cons, Forest.bears, own] at this
      omega
    rw [Forest.routes_cons, insertAll_append,
      insertAll_of_unfound merges (s := ⟨d, e, number⟩) strange unfound
        (Rules.outranked_eq_false unranked _ _) (Forest.routesBelow_ne_nil cs), inside, hrest]
    · simp
    · rw [List.reverse_append, List.map_append]
      exact beside
    · intro k
      have := once k
      simp only [Forest.total_append, Forest.total, Node.total] at this ⊢
      omega

end Growth

end WorldMarkup
