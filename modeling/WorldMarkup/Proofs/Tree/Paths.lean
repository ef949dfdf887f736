import WorldMarkup.Tree.Path

/-!
The paths of a forest and the numbers on them. Main statements: numbers grow along a path and from
tree to tree, two paths through nodes of one number agree down to it, and no path is the start of
another.
-/

set_option autoImplicit false
set_option relaxedAutoImplicit false

namespace WorldMarkup

variable {α : Type}

/-- No path is the start of another. -/
def Path.AreApart (paths : List (Path α)) : Prop :=
  paths.Pairwise (fun p q => ¬ p <+: q ∧ ¬ q <+: p)

namespace Forest

theorem pathsFrom_ne_nil {t : Forest α} (h : t ≠ []) (first : Nat) :
    Forest.pathsFrom first t ≠ [] := by
  induction t using Forest.induction generalizing first with
  | nil => exact absurd rfl h
  | cons d e cs rest hcs hrest =>
    intro hnil
    simp only [Forest.pathsFrom, Node.paths, List.append_eq_nil_iff] at hnil
    split at hnil
    · simp at hnil
    · rename_i hne
      exact hcs (by simpa using hne) (first + 1) (by simpa using hnil.1)

theorem nil_notMem_pathsFrom (t : Forest α) (first : Nat) : [] ∉ Forest.pathsFrom first t := by
  induction t using Forest.induction generalizing first with
  | nil => simp [Forest.pathsFrom]
  | cons d e cs rest hcs hrest =>
    simp only [Forest.pathsFrom, Node.paths, List.mem_append, not_or]
    refine ⟨?_, hrest _⟩
    split <;> simp

theorem exists_path_cons {d : α} {e : Extra} {cs rest : Forest α} {first : Nat}
    {P : Path α → Prop} :
    (∃ p ∈ Forest.pathsFrom first (⟨d, e, cs⟩ :: rest), P p) ↔
      (if cs = [] then P [⟨d, e, first⟩]
        else ∃ p ∈ Forest.pathsFrom (first + 1) cs, P (⟨d, e, first⟩ :: p)) ∨
      ∃ p ∈ Forest.pathsFrom (first + Node.size ⟨d, e, cs⟩) rest, P p := by
  simp only [Forest.pathsFrom, Node.paths, List.mem_append, or_and_right, exists_or]
  refine or_congr_left ?_
  by_cases hcs : cs = []
  · simp [hcs]
  · simp only [hcs, List.isEmpty_iff, if_false, List.mem_map]
    constructor
    · rintro ⟨p, ⟨q, hq, rfl⟩, hp⟩
      exact ⟨q, hq, hp⟩
    · rintro ⟨q, hq, hp⟩
      exact ⟨_, ⟨q, hq, rfl⟩, hp⟩

def rests (first : Nat) (cs : Forest α) : List (Path α) :=
  if cs.isEmpty then [[]] else Forest.pathsFrom first cs

theorem rests_ne_nil (first : Nat) (cs : Forest α) : rests first cs ≠ [] := by
  rw [rests]
  split
  · simp
  · rename_i inner
    exact pathsFrom_ne_nil (by simpa using inner) first

theorem paths_eq_rests (first : Nat) (d : α) (e : Extra) (cs : Forest α) :
    Node.paths first ⟨d, e, cs⟩ = (rests (first + 1) cs).map (⟨d, e, first⟩ :: ·) := by
  rw [Node.paths, rests]
  split <;> simp

theorem mem_pathsFrom_of_mem_rests {d : α} {e : Extra} {cs rest : Forest α} {first : Nat}
    {q : Path α} (h : q ∈ rests (first + 1) cs) :
    ⟨d, e, first⟩ :: q ∈ Forest.pathsFrom first (⟨d, e, cs⟩ :: rest) := by
  rw [Forest.pathsFrom, paths_eq_rests]
  exact List.mem_append_left _ (List.mem_map_of_mem h)

theorem size_eq (d : α) (e : Extra) (cs : Forest α) :
    Node.size ⟨d, e, cs⟩ = 1 + Forest.size cs := rfl

theorem pathsFrom_append (first : Nat) (t u : Forest α) :
    Forest.pathsFrom first (t ++ u) =
      Forest.pathsFrom first t ++ Forest.pathsFrom (first + Forest.size t) u := by
  induction t generalizing first with
  | nil => simp [Forest.pathsFrom, Forest.size]
  | cons n t ih =>
    simp only [List.cons_append, Forest.pathsFrom, Forest.size, ih, List.append_assoc, Nat.add_assoc]

theorem exists_path_flatMap {β : Type} {f : β → Forest α} {l : List β} {P : Path α → Prop}
    {Q : β → Prop} (h : ∀ x ∈ l, ∀ first, (∃ p ∈ Forest.pathsFrom first (f x), P p) ↔ Q x)
    (first : Nat) : (∃ p ∈ Forest.pathsFrom first (l.flatMap f), P p) ↔ ∃ x ∈ l, Q x := by
  induction l generalizing first with
  | nil => simp [Forest.pathsFrom]
  | cons x l ih =>
    obtain ⟨own, others⟩ := List.forall_mem_cons.1 h
    rw [List.flatMap_cons, pathsFrom_append]
    simp only [List.mem_append, List.mem_cons, or_and_right, exists_or, exists_eq_left]
    rw [own, ih others]

theorem origin_bounds {t : Forest α} {first : Nat} {p : Path α}
    (hp : p ∈ Forest.pathsFrom first t) {s : Step α} (hs : s ∈ p) :
    first ≤ s.origin ∧ s.origin < first + Forest.size t := by
  induction t using Forest.induction generalizing first p with
  | nil => simp [Forest.pathsFrom] at hp
  | cons d e cs rest hcs hrest =>
    simp only [Forest.size, size_eq]
    simp only [Forest.pathsFrom, Node.paths, List.mem_append] at hp
    rcases hp with hp | hp
    · split at hp
      · obtain rfl := List.mem_singleton.1 hp
        obtain rfl := List.mem_singleton.1 hs
        simp only
        omega
      · obtain ⟨q, hq, rfl⟩ := List.mem_map.1 hp
        rcases List.mem_cons.1 hs with rfl | hs
        · simp only
          omega
        · have := hcs hq hs
          omega
    · have := hrest hp hs
      rw [size_eq] at this
      omega

/-- Two paths through nodes of one number agree down to it. -/
theorem prefix_eq_of_origin_eq {t : Forest α} {first : Nat} {x y x' y' : Path α} {s s' : Step α}
    (hp : x ++ s :: y ∈ Forest.pathsFrom first t)
    (hp' : x' ++ s' :: y' ∈ Forest.pathsFrom first t) (h : s.origin = s'.origin) :
    x = x' ∧ s = s' := by
  induction t using Forest.induction generalizing first x y x' y' with
  | nil => simp [Forest.pathsFrom] at hp
  | cons d e cs rest hcs hrest =>
    have inNode {x y : Path α} {s : Step α} (hp : x ++ s :: y ∈ Node.paths first ⟨d, e, cs⟩) :
        s.origin < first + Node.size ⟨d, e, cs⟩ ∧
          (x = [] ∧ s = ⟨d, e, first⟩ ∨ ∃ z, x = ⟨d, e, first⟩ :: z ∧
            z ++ s :: y ∈ Forest.pathsFrom (first + 1) cs) := by
      rw [size_eq]
      rw [Node.paths] at hp
      split at hp
      · rcases x with _ | ⟨a, x⟩
        · obtain ⟨rfl, rfl⟩ := List.cons.inj (List.mem_singleton.1 hp)
          exact ⟨by simp only; omega, .inl ⟨rfl, rfl⟩⟩
        · simp at hp
      · obtain ⟨q, hq, heq⟩ := List.mem_map.1 hp
        rcases x with _ | ⟨a, x⟩
        · obtain ⟨rfl, rfl⟩ := List.cons.inj heq
          exact ⟨by simp only; omega, .inl ⟨rfl, rfl⟩⟩
        · obtain ⟨rfl, rfl⟩ := List.cons.inj heq
          have := (origin_bounds hq (by simp : s ∈ x ++ s :: y)).2
          exact ⟨by omega, .inr ⟨x, rfl, hq⟩⟩
    simp only [Forest.pathsFrom, List.mem_append] at hp hp'
    rcases hp with hp | hp <;> rcases hp' with hp' | hp'
    · obtain ⟨-, ⟨rfl, rfl⟩ | ⟨z, rfl, hz⟩⟩ := inNode hp <;>
        obtain ⟨-, ⟨rfl, rfl⟩ | ⟨z', rfl, hz'⟩⟩ := inNode hp'
      · exact ⟨rfl, rfl⟩
      · have := (origin_bounds hz' (by simp : s' ∈ z' ++ s' :: y')).1
        simp only at h
        omega
      · have := (origin_bounds hz (by simp : s ∈ z ++ s :: y)).1
        simp only at h
        omega
      · obtain ⟨rfl, rfl⟩ := hcs hz hz'
        exact ⟨rfl, rfl⟩
    · have hlt := (inNode hp).1
      have hle := (origin_bounds hp' (by simp : s' ∈ x' ++ s' :: y')).1
      omega
    · have hlt := (inNode hp').1
      have hle := (origin_bounds hp (by simp : s ∈ x ++ s :: y)).1
      omega
    · exact hrest hp hp'

theorem areApart_pathsFrom (t : Forest α) (first : Nat) :
    Path.AreApart (Forest.pathsFrom first t) := by
  induction t using Forest.induction generalizing first with
  | nil => exact .nil
  | cons d e cs rest hcs hrest =>
    rw [Path.AreApart, Forest.pathsFrom, paths_eq_rests, List.pairwise_append, List.pairwise_map]
    refine ⟨?_, hrest _, ?_⟩
    · have below : Path.AreApart (rests (first + 1) cs) := by
        unfold rests
        split
        · exact List.pairwise_singleton _ _
        · exact hcs (first + 1)
      simpa [Path.AreApart, List.prefix_cons_inj] using below
    · intro p hp q hq
      obtain ⟨p, -, rfl⟩ := List.mem_map.1 hp
      cases q with
      | nil => exact absurd hq (nil_notMem_pathsFrom rest _)
      | cons s q =>
        have later := (origin_bounds hq List.mem_cons_self).1
        have differ : ⟨d, e, first⟩ ≠ s := by
          rintro rfl
          rw [size_eq] at later
          simp only at later
          omega
        simp [List.cons_prefix_cons, differ, differ.symm]

end Forest

end WorldMarkup
