import WorldMarkup.Proofs.Tree.Restoring

/-!
Paths that come from one forest, by however many filters. Main statement: the paths of a forest
agree down to every node they share, rise in number where they part, and end at no wrapper.
-/

set_option autoImplicit false
set_option relaxedAutoImplicit false

namespace WorldMarkup

variable {α κ : Type}

namespace Path

/-! ### Paths that come from one forest -/

/-- Where the two paths part, the second one takes the greater number. -/
def Rises (p q : Path α) : Prop :=
  ∀ (x y y' : Path α) (b b' : Step α), p = x ++ b :: y → q = x ++ b' :: y' → b.origin ≤ b'.origin

theorem Rises.shorten {p q p' q' : Path α} (h : Rises p q) (hp : p' <+: p) (hq : q' <+: q) :
    Rises p' q' := by
  obtain ⟨z, rfl⟩ := hp
  obtain ⟨z', rfl⟩ := hq
  rintro x y y' b b' rfl rfl
  exact h x (y ++ z) (y' ++ z') b b' (by simp) (by simp)

/-- What the paths of a forest have in common, and keep when some of them go and others are cut
short. -/
structure IsLineage (isWrapper : α → Bool) (paths : List (Path α)) : Prop where
  /-- Paths through nodes of one number agree down to it. -/
  agree : ∀ {x y x' y' : Path α} {s s' : Step α}, x ++ s :: y ∈ paths →
    x' ++ s' :: y' ∈ paths → s.origin = s'.origin → x = x' ∧ s = s'
  rising : paths.Pairwise Rises
  nodup : paths.Nodup
  ended : ∀ p ∈ paths, ∀ s, p.getLast? = some s → isWrapper s.data = false
  short : ∀ p ∈ paths, p.length ≤ maxDepth

end Path

namespace Forest

/-- The paths of a forest differ, and part to greater numbers. -/
theorem pairwise_pathsFrom (t : Forest α) (first : Nat) :
    (Forest.pathsFrom first t).Pairwise (fun p q => p ≠ q ∧ Path.Rises p q) := by
  induction t using Forest.induction generalizing first with
  | nil => simp [Forest.pathsFrom]
  | cons d e cs rest hcs hrest =>
    have inside : ((rests (first + 1) cs).map (⟨d, e, first⟩ :: ·)).Pairwise
        (fun p q => p ≠ q ∧ Path.Rises p q) := by
      have below : (rests (first + 1) cs).Pairwise (fun p q => p ≠ q ∧ Path.Rises p q) := by
        unfold rests
        split
        · simp
        · exact hcs (first + 1)
      rw [List.pairwise_map]
      apply below.imp
      rintro p q ⟨differ, part⟩
      refine ⟨by simpa using differ, ?_⟩
      intro x y y' b b' hp hq
      cases x with
      | nil =>
        obtain ⟨rfl, -⟩ := List.cons.inj hp
        obtain ⟨rfl, -⟩ := List.cons.inj hq
        exact Nat.le_refl _
      | cons s x =>
        obtain ⟨-, hp⟩ := List.cons.inj hp
        obtain ⟨-, hq⟩ := List.cons.inj hq
        exact part x y y' b b' hp hq
    rw [Forest.pathsFrom, paths_eq_rests, List.pairwise_append]
    refine ⟨inside, hrest _, ?_⟩
    intro p hp q hq
    obtain ⟨p, -, rfl⟩ := List.mem_map.1 hp
    have beyond {s : Step α} (hs : s ∈ q) : first < s.origin := by
      have := (origin_bounds hq hs).1
      rw [size_eq] at this
      omega
    constructor
    · rintro rfl
      exact absurd (beyond (List.mem_cons_self)) (by simp)
    · intro x y y' b b' hp hq
      cases x with
      | nil =>
        obtain ⟨rfl, -⟩ := List.cons.inj hp
        exact Nat.le_of_lt (beyond (by simp [hq]))
      | cons s x =>
        obtain ⟨rfl, -⟩ := List.cons.inj hp
        exact absurd (beyond (s := ⟨d, e, first⟩) (by simp [hq])) (by simp)

theorem ended_of_fault? {isWrapper : α → Bool} {t : Forest α} {depth first : Nat}
    (h : Forest.faultAt? isWrapper depth t = none) :
    ∀ p ∈ Forest.pathsFrom first t,
      (∀ s, p.getLast? = some s → isWrapper s.data = false) ∧ depth + p.length ≤ maxDepth := by
  induction t using Forest.induction generalizing depth first with
  | nil => simp [Forest.pathsFrom]
  | cons d e cs rest hcs hrest =>
    obtain ⟨hnode, hbeside⟩ := Option.or_eq_none_iff.1 h
    intro p hp
    rw [Forest.pathsFrom, paths_eq_rests, List.mem_append] at hp
    rcases hp with hp | hp
    · obtain ⟨q, hq, rfl⟩ := List.mem_map.1 hp
      unfold Node.fault? at hnode
      split at hnode
      · simp at hnode
      · rename_i within
        cases cs with
        | nil =>
          obtain rfl := List.mem_singleton.1 hq
          refine ⟨?_, by simp; omega⟩
          intro s hs
          obtain rfl : ⟨d, e, first⟩ = s := by simpa using hs
          simpa using hnode
        | cons n cs =>
          obtain ⟨ended, short⟩ := hcs (by simpa using hnode) q hq
          have nonempty : q ≠ [] := by
            rintro rfl
            exact nil_notMem_pathsFrom _ _ hq
          refine ⟨?_, by rw [List.length_cons]; omega⟩
          intro s hs
          apply ended s
          rwa [List.getLast?_cons_of_ne_nil nonempty] at hs
    · exact hrest hbeside p hp

theorem fault?_of_ended {isWrapper : α → Bool} {t : Forest α} {depth : Nat} (first : Nat)
    (h : ∀ p ∈ Forest.pathsFrom first t,
      (∀ s, p.getLast? = some s → isWrapper s.data = false) ∧ depth + p.length ≤ maxDepth) :
    Forest.faultAt? isWrapper depth t = none := by
  induction t using Forest.induction generalizing depth first with
  | nil => rfl
  | cons d e cs rest hcs hrest =>
    rw [Forest.pathsFrom, paths_eq_rests] at h
    obtain ⟨own, beside⟩ := List.forall_mem_append.1 h
    refine Option.or_eq_none_iff.2 ⟨?_, hrest _ beside⟩
    have below : ∀ q ∈ rests (first + 1) cs,
        (∀ s, (⟨d, e, first⟩ :: q).getLast? = some s → isWrapper s.data = false) ∧
          depth + (q.length + 1) ≤ maxDepth :=
      fun q hq => own _ (List.mem_map_of_mem hq)
    obtain ⟨q, hq⟩ := List.exists_mem_of_ne_nil _ (rests_ne_nil (first + 1) cs)
    have := (below q hq).2
    unfold Node.fault?
    rw [if_neg (by omega)]
    cases cs with
    | nil => simpa using (below [] (by simp [rests])).1 _ rfl
    | cons n cs =>
      refine hcs (first + 1) fun q hq => ?_
      obtain ⟨ended, short⟩ := below q hq
      have nonempty : q ≠ [] := by
        rintro rfl
        exact nil_notMem_pathsFrom _ _ hq
      rw [List.getLast?_cons_of_ne_nil nonempty] at ended
      exact ⟨ended, by omega⟩

/-- The paths of a forest without fault. -/
theorem isLineage_paths {isWrapper : α → Bool} {t : Forest α}
    (h : Forest.fault? isWrapper t = none) : Path.IsLineage isWrapper (Forest.paths t) where
  agree hp hp' := prefix_eq_of_origin_eq hp hp'
  rising := (pairwise_pathsFrom t 0).imp And.right
  nodup := (pairwise_pathsFrom t 0).imp And.left
  ended p hp := (ended_of_fault? h p hp).1
  short p hp := by
    have := (ended_of_fault? h p hp).2
    omega

end Forest

namespace Path

theorem IsLineage.ofPaths {paths : List (Path α)} {r : Rules α κ} (h : IsLineage r.isWrapper paths) :
    Outline.ofPaths r paths = .ok ⟨r, paths⟩ := by
  have faultless : paths.findSome? (Path.fault? r.isWrapper) = none := by
    rw [List.findSome?_eq_none_iff]
    intro p hp
    have within : ¬ maxDepth < p.length := Nat.not_lt.2 (h.short p hp)
    unfold Path.fault?
    rw [if_neg within]
    cases hlast : p.getLast? with
    | none => rfl
    | some s => simp [h.ended p hp s hlast]
  unfold Outline.ofPaths
  rw [faultless]

end Path

end WorldMarkup
