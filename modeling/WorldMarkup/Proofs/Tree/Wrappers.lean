import Mathlib.Data.List.Forall2
import WorldMarkup.Proofs.Tree.Filtering
import WorldMarkup.Proofs.Tree.Pruning
import WorldMarkup.Proofs.Tree.Routes

/-!
What wrappers hold. A wrapper joins only its own node, so that paths of other nodes never run
through it. Main statements: in what grows from paths of a forest, some of them dropped and others
cut short, every wrapper comes from one of the forest, and it holds what grows from the rests of
the paths through its number.
-/

set_option autoImplicit false
set_option relaxedAutoImplicit false

namespace WorldMarkup

variable {α : Type}

/-! ### The trees within a forest -/

/-- The trees within a forest, in preorder. -/
def Forest.trees (t : Forest α) : List (Node α) := (Forest.placed 0 t).map Prod.snd

namespace Forest

theorem map_snd_placed (t : Forest α) (depth depth' : Nat) :
    (placed depth t).map Prod.snd = (placed depth' t).map Prod.snd := by
  induction t using Forest.induction generalizing depth depth' with
  | nil => rfl
  | cons d e cs rest hcs hrest =>
    simp only [placed_cons, List.map_cons, List.map_append]
    rw [hcs (depth + 1) (depth' + 1), hrest depth depth']

theorem trees_nil : trees ([] : Forest α) = [] := rfl

theorem trees_cons (d : α) (e : Extra) (cs rest : Forest α) :
    trees (⟨d, e, cs⟩ :: rest) = ⟨d, e, cs⟩ :: (trees cs ++ trees rest) := by
  rw [trees, placed_cons, List.map_cons, List.map_append, map_snd_placed cs 1 0]
  rfl

theorem trees_append (t u : Forest α) : trees (t ++ u) = trees t ++ trees u := by
  induction t with
  | nil => rfl
  | cons n t ih =>
    cases n
    rw [List.cons_append, trees_cons, trees_cons, ih, List.cons_append, List.append_assoc]

theorem mem_trees_of_mem {t : Forest α} {n : Node α} (hn : n ∈ t) : n ∈ trees t := by
  obtain ⟨before, after, rfl⟩ := List.append_of_mem hn
  cases n
  simp [trees_append, trees_cons]

theorem mem_trees_of_mem_children {t : Forest α} {n m : Node α} (hn : n ∈ trees t)
    (hm : m ∈ n.children) : m ∈ trees t := by
  induction t using Forest.induction with
  | nil => simp [trees_nil] at hn
  | cons d e cs rest hcs hrest =>
    rw [trees_cons] at hn ⊢
    rcases List.mem_cons.1 hn with rfl | hn
    · exact List.mem_cons_of_mem _ (List.mem_append_left _ (mem_trees_of_mem hm))
    · rcases List.mem_append.1 hn with hn | hn
      · exact List.mem_cons_of_mem _ (List.mem_append_left _ (hcs hn))
      · exact List.mem_cons_of_mem _ (List.mem_append_right _ (hrest hn))

theorem trees_map {β : Type} (f : α → β) (t : Forest α) :
    trees (map f t) = (trees t).map (Node.map f) := by
  induction t using Forest.induction with
  | nil => rfl
  | cons d e cs rest hcs hrest =>
    rw [map, Node.map, trees_cons, trees_cons, hcs, hrest, List.map_cons, List.map_append]
    rfl

theorem number_of_mem_trees {t : Forest α} {first : Nat} {n : Node (α × Nat)}
    (hn : n ∈ trees (numbered first t)) : first ≤ n.data.2 ∧ n.data.2 < first + size t := by
  induction t using Forest.induction generalizing first with
  | nil => simp [numbered, trees_nil] at hn
  | cons d e cs rest hcs hrest =>
    rw [numbered, Node.numbered, trees_cons] at hn
    rw [size, size_eq]
    rcases List.mem_cons.1 hn with rfl | hn
    · simp only
      omega
    · rcases List.mem_append.1 hn with hn | hn
      · have := hcs hn
        omega
      · have := hrest hn
        rw [size_eq] at this
        omega

end Forest

/-! ### What follows a number -/

def Path.after? (number : Nat) : Path α → Option (Path α)
  | [] => none
  | s :: rest => if s.origin = number then some rest else Path.after? number rest

namespace Path

variable {k : Nat} {s : Step α} {p : Path α} {paths : List (Path α)}

theorem after?_eq_none (h : ∀ s ∈ p, s.origin ≠ k) : after? k p = none := by
  induction p with
  | nil => rfl
  | cons s p ih =>
    obtain ⟨own, others⟩ := List.forall_mem_cons.1 h
    rw [after?, if_neg own, ih others]

theorem filterMap_after?_eq_nil (h : ∀ p ∈ paths, ∀ s ∈ p, s.origin ≠ k) :
    paths.filterMap (after? k) = [] :=
  List.filterMap_eq_nil_iff.2 fun p hp => after?_eq_none (h p hp)

theorem filterMap_after?_own (paths : List (Path α)) (s : Step α) :
    (paths.map (s :: ·)).filterMap (after? s.origin) = paths := by
  rw [List.filterMap_map]
  exact (List.filterMap_congr fun p _ => if_pos rfl).trans List.filterMap_some

theorem filterMap_after?_other (own : s.origin ≠ k) (paths : List (Path α)) :
    (paths.map (s :: ·)).filterMap (after? k) = paths.filterMap (after? k) := by
  rw [List.filterMap_map]
  exact List.filterMap_congr fun p _ => if_neg own

theorem filterMap_after?_nonempty (paths : List (Path α)) :
    (paths.filter (fun p => !p.isEmpty)).filterMap (after? k) = paths.filterMap (after? k) := by
  rw [List.filterMap_filter]
  refine List.filterMap_congr fun p _ => ?_
  cases p <;> simp [after?]

variable {more : List (Path α)} {bound : Nat}

theorem filterMap_after?_left (beyond : ∀ p ∈ more, ∀ s ∈ p, bound ≤ s.origin) (low : k < bound) :
    (paths ++ more).filterMap (after? k) = paths.filterMap (after? k) := by
  have none : more.filterMap (after? k) = [] :=
    filterMap_after?_eq_nil fun p hp s hs same => absurd (beyond p hp s hs) (by omega)
  rw [List.filterMap_append, none, List.append_nil]

theorem filterMap_after?_right (within : ∀ p ∈ paths, ∀ s ∈ p, s.origin < bound)
    (high : bound ≤ k) : (paths ++ more).filterMap (after? k) = more.filterMap (after? k) := by
  have none : paths.filterMap (after? k) = [] :=
    filterMap_after?_eq_nil fun p hp s hs same => absurd (within p hp s hs) (by omega)
  rw [List.filterMap_append, none, List.nil_append]

end Path

namespace Forest

theorem lt_of_mem_own {d : α} {e : Extra} {cs : Forest α} {first : Nat} {p : Path α} {s : Step α}
    (hp : p ∈ (rests (first + 1) cs).map (⟨d, e, first⟩ :: ·)) (hs : s ∈ p) :
    s.origin < first + Node.size ⟨d, e, cs⟩ := by
  have hp : p ∈ pathsFrom first [⟨d, e, cs⟩] := by
    rw [pathsFrom, paths_eq_rests]
    simpa [pathsFrom] using hp
  have bound := (origin_bounds hp hs).2
  rwa [size, size, Nat.add_zero] at bound

/-- In a forest as it grows back, what follows the number of a tree on the paths are the paths below
its root. -/
theorem after?_paths {t : Forest α} {first : Nat} {n : Node (α × Nat)}
    (hn : n ∈ trees (numbered first t)) :
    (pathsFrom first t).filterMap (Path.after? n.data.2) = routesBelow n.children := by
  induction t using Forest.induction generalizing first with
  | nil => simp [numbered, trees_nil] at hn
  | cons d e cs rest hcs hrest =>
    have size := size_eq d e cs
    have within : ∀ p ∈ (rests (first + 1) cs).map (⟨d, e, first⟩ :: ·), ∀ s ∈ p,
        s.origin < first + Node.size ⟨d, e, cs⟩ := fun p hp s hs => lt_of_mem_own hp hs
    have beyond : ∀ p ∈ pathsFrom (first + Node.size ⟨d, e, cs⟩) rest, ∀ s ∈ p,
        first + Node.size ⟨d, e, cs⟩ ≤ s.origin := fun p hp s hs => (origin_bounds hp hs).1
    rw [pathsFrom, paths_eq_rests]
    rw [numbered, Node.numbered, trees_cons] at hn
    rcases List.mem_cons.1 hn with rfl | hn
    · have below : routesBelow (numbered (first + 1) cs) = rests (first + 1) cs := by
        rw [routesBelow, rests, routes_numbered]
        cases cs <;> rfl
      rw [Path.filterMap_after?_left beyond (by simp only; omega)]
      exact (Path.filterMap_after?_own _ ⟨d, e, first⟩).trans below.symm
    · rcases List.mem_append.1 hn with hn | hn
      · have bounds := number_of_mem_trees hn
        rw [Path.filterMap_after?_left beyond (by omega),
          Path.filterMap_after?_other (by simp only; omega), ← hcs hn, rests]
        split
        · rename_i leaf
          rw [List.isEmpty_iff.1 leaf] at hn
          simp [numbered, trees_nil] at hn
        · rfl
      · rw [Path.filterMap_after?_right within (number_of_mem_trees hn).1, hrest hn]

end Forest

/-! ### Paths dropped and cut short -/

namespace Path

variable {s : Step α} {paths more kept : List (Path α)}

/-- Some of the paths are dropped, and of the others some are cut short. -/
abbrev Trims (kept paths : List (Path α)) : Prop :=
  List.SublistForall₂ (fun q p => q <+: p) kept paths

theorem Trims.refl (paths : List (Path α)) : Trims paths paths :=
  List.sublistForall₂_iff.2 ⟨paths, List.forall₂_same.2 fun p _ => List.prefix_refl p, .refl paths⟩

theorem Trims.trans {paths kept rest : List (Path α)} (h : Trims rest kept)
    (h' : Trims kept paths) : Trims rest paths :=
  haveI : IsTrans (Path α) (fun q p => q <+: p) := ⟨fun _ _ _ => List.IsPrefix.trans⟩
  List.SublistForall₂.is_trans.trans _ _ _ h h'

theorem exists_of_trims_append (h : Trims kept (paths ++ more)) :
    ∃ first second, kept = first ++ second ∧ Trims first paths ∧ Trims second more := by
  induction paths generalizing kept with
  | nil => exact ⟨[], kept, rfl, .nil, h⟩
  | cons p paths ih =>
    cases h with
    | nil => exact ⟨[], [], rfl, .nil, .nil⟩
    | cons short h =>
      obtain ⟨first, second, rfl, hfirst, hsecond⟩ := ih h
      exact ⟨_, second, rfl, .cons short hfirst, hsecond⟩
    | cons_right h =>
      obtain ⟨first, second, rfl, hfirst, hsecond⟩ := ih h
      exact ⟨first, second, rfl, .cons_right hfirst, hsecond⟩

theorem exists_of_trims_map (h : Trims kept (paths.map (s :: ·))) (nonempty : [] ∉ kept) :
    ∃ below, kept = below.map (s :: ·) ∧ Trims below paths := by
  induction paths generalizing kept with
  | nil =>
    cases h
    exact ⟨[], rfl, .nil⟩
  | cons p paths ih =>
    cases h with
    | nil => exact ⟨[], rfl, .nil⟩
    | @cons q _ kept _ short h =>
      obtain ⟨below, rfl, hbelow⟩ := ih h (fun none => nonempty (by simp [none]))
      cases q with
      | nil => exact absurd (List.mem_cons_self) nonempty
      | cons x q =>
        have short : x :: q <+: s :: p := short
        obtain ⟨rfl, shorter⟩ := List.cons_prefix_cons.1 short
        exact ⟨q :: below, rfl, .cons shorter hbelow⟩
    | cons_right h =>
      obtain ⟨below, rfl, hbelow⟩ := ih h nonempty
      exact ⟨below, rfl, .cons_right hbelow⟩

theorem Trims.exists_longer (h : Trims kept paths) {q : Path α} (hq : q ∈ kept) :
    ∃ p ∈ paths, q <+: p := by
  induction h with
  | nil => simp at hq
  | cons short h ih =>
    rcases List.mem_cons.1 hq with rfl | hq
    · exact ⟨_, List.mem_cons_self, short⟩
    · obtain ⟨p, hp, short⟩ := ih hq
      exact ⟨p, List.mem_cons_of_mem _ hp, short⟩
  | cons_right h ih =>
    obtain ⟨p, hp, short⟩ := ih hq
    exact ⟨p, List.mem_cons_of_mem _ hp, short⟩

theorem Trims.filter (h : Trims kept paths) (test : Path α → Bool) :
    Trims (kept.filter test) paths := by
  induction h with
  | nil => exact .nil
  | @cons q p kept paths short h ih =>
    rw [List.filter_cons]
    split
    · exact .cons short ih
    · exact .cons_right ih
  | cons_right h ih => exact .cons_right ih

theorem Trims.below {first : Nat} {cs : Forest α} (h : Trims kept (Forest.rests first cs)) :
    Trims (kept.filter (fun p => !p.isEmpty)) (Forest.pathsFrom first cs) := by
  cases cs with
  | nil =>
    have none : kept.filter (fun p => !p.isEmpty) = [] := by
      rw [List.filter_eq_nil_iff]
      intro q hq
      obtain ⟨p, hp, short⟩ := h.exists_longer hq
      obtain rfl := List.mem_singleton.1 hp
      simp [List.prefix_nil.1 short]
    rw [none]
    exact .nil
  | cons n cs => exact h.filter _

theorem trims_filter (isWrapper : α → Bool) (wanted : Path α → Bool) (paths : List (Path α)) :
    Trims (Path.filter isWrapper wanted paths) paths := by
  have kept {ws bs placed : List Nat} (ps : List (Path α)) :
      Trims (keepOrStandIn isWrapper ws bs wanted placed ps) ps := by
    induction ps generalizing placed with
    | nil => exact .nil
    | cons p ps ih =>
      rw [keepOrStandIn]
      split
      · exact .cons (List.prefix_refl p) ih
      · split
        · exact .cons_right ih
        · rename_i found
          obtain ⟨w, b, -, -, -, -, stands⟩ := standIn?_eq_some found
          split
          · exact .cons_right ih
          · exact .cons stands.shortens ih
  exact kept paths

/-! ### Wrappers that no wanted path passes through -/

section Idle

variable {isWrapper : α → Bool} {wanted : Path α → Bool} {k : Nat}

/-- A filter keeps at most one path through a wrapper that no wanted path passes through: it stands
in for a branch further up. -/
theorem IsLineage.eq_of_idle (h : IsLineage isWrapper paths) {x : Step α}
    (idle : ∀ p ∈ paths, wanted p = true → x ∉ p) {q q' : Path α}
    (hq : q ∈ Path.filter isWrapper wanted paths) (hq' : q' ∈ Path.filter isWrapper wanted paths)
    (hx : x ∈ q) (hx' : x ∈ q') : q = q' := by
  rcases h.isFiltered.others q hq with hwanted | ⟨p, hp, -, w, b, need, stands⟩
  · obtain ⟨hq, hwanted⟩ := List.mem_filter.1 hwanted
    exact absurd hx (idle q hq hwanted)
  obtain ⟨above, below, rfl⟩ : ∃ above below, q = above ++ w :: b :: below := by
    obtain ⟨above, below, whole⟩ := stands.mem
    exact ⟨above, below, by simp [← whole]⟩
  -- all that stands above the branch stands on a wanted path
  have lower : x ∈ b :: below := by
    have split : above ++ w :: b :: below = (above ++ [w]) ++ b :: below := by simp
    rw [split] at hx
    rcases List.mem_append.1 hx with upper | lower
    · exfalso
      obtain ⟨m, hm, hwanted, hw⟩ := need.live
      obtain ⟨z, z', rfl⟩ := List.append_of_mem hw
      obtain ⟨longer, hlonger, rest, rfl⟩ := (trims_filter _ _ _).exists_longer hq
      have same : above = z := h.eq_of_append hlonger hm (y := b :: below ++ rest) (by simp) rfl
      subst same
      refine idle _ hm hwanted ?_
      simp only [List.mem_append, List.mem_cons, List.not_mem_nil, or_false] at upper ⊢
      tauto
    · exact lower
  obtain ⟨u, v, hu⟩ := List.append_of_mem lower
  have through : b ∈ above ++ w :: u ++ [x] := by
    cases u with
    | nil =>
      obtain ⟨rfl, -⟩ := List.cons.inj hu
      simp
    | cons c u =>
      obtain ⟨rfl, -⟩ := List.cons.inj hu
      simp
  obtain ⟨u', v', rfl⟩ := List.append_of_mem hx'
  have same : above ++ w :: u = u' :=
    h.filter.eq_of_append hq hq' (y := v) (by simp [hu]) rfl
  refine h.eq_of_need need hq hq' (by simp) ?_
  rw [← same]
  simp only [List.mem_append, List.mem_cons, List.not_mem_nil, or_false] at through ⊢
  tauto

theorem exists_after? {p : Path α} (h : ∃ s ∈ p, s.origin = k) :
    ∃ x s rest, p = x ++ s :: rest ∧ s.origin = k ∧ after? k p = some rest := by
  induction p with
  | nil => simp at h
  | cons c p ih =>
    by_cases own : c.origin = k
    · exact ⟨[], c, p, rfl, own, if_pos own⟩
    · obtain ⟨s, hs, number⟩ := h
      rcases List.mem_cons.1 hs with rfl | hs
      · exact absurd number own
      · obtain ⟨x, s', rest, rfl, number, after⟩ := ih ⟨s, hs, number⟩
        exact ⟨c :: x, s', rest, rfl, number, (if_neg own).trans after⟩

theorem filterMap_after?_single (nodup : paths.Nodup)
    (only : ∀ p ∈ paths, ∀ q ∈ paths, (∃ s ∈ p, s.origin = k) → (∃ s ∈ q, s.origin = k) → p = q)
    {p : Path α} (hp : p ∈ paths) (passed : ∃ s ∈ p, s.origin = k) :
    ∃ x s rest, p = x ++ s :: rest ∧ s.origin = k ∧ paths.filterMap (after? k) = [rest] := by
  obtain ⟨x, s, rest, split, own, after⟩ := exists_after? passed
  refine ⟨x, s, rest, split, own, ?_⟩
  obtain ⟨front, back, rfl⟩ := List.append_of_mem hp
  have others : ∀ q ∈ front ++ back, ∀ s' ∈ q, s'.origin ≠ k := by
    intro q hq s' hs' same
    have there : q ∈ front ++ p :: back := by
      simp only [List.mem_append, List.mem_cons] at hq ⊢
      tauto
    obtain rfl := only p hp q there passed ⟨s', hs', same⟩
    exact (List.nodup_cons.1 (List.perm_middle.nodup_iff.1 nodup)).1 hq
  obtain ⟨before, behind⟩ := List.forall_mem_append.1 others
  rw [List.filterMap_append, List.filterMap_cons, after, filterMap_after?_eq_nil before,
    filterMap_after?_eq_nil behind]
  rfl

end Idle

end Path

/-! ### What wrappers hold -/

namespace Growth

open WorldMarkup.Path

/-- Laying paths in below one fresh root: a wrapper is the root, or it was there before, or it is
met below the root or below the node that the root joins. -/
theorem mem_trees_insertAll_root {s : Step Tag} {below : List (Path Tag)} {g : Growth Tag}
    (fresh : Forest.IsNumberedBelow s.origin g) {m : Node (Tag × Nat)}
    (hm : m ∈ Forest.trees (insertAll (regrowth []) (below.map (s :: ·)) g))
    (wrapper : m.data.1.isWrapper = true) :
    m ∈ Forest.trees g ∨
      below ≠ [] ∧ m = ⟨(s.data, s.origin), s.extra, insertAll (regrowth []) below []⟩ ∨
      ∃ h, Forest.IsNumberedBelow s.origin h ∧ (∀ x ∈ Forest.trees h, x ∈ Forest.trees g) ∧
        m ∈ Forest.trees (insertAll (regrowth []) below h) := by
  by_cases empty : below = []
  · subst empty
    exact .inl hm
  rcases meets_or_isNew (regrowth []) s g with ⟨before, n, after, rfl, meets⟩ | new
  · rw [insertAll_of_meets meets empty, Forest.trees_append, Forest.trees_cons] at hm
    rcases n with ⟨⟨t, number⟩, e, cs⟩
    obtain ⟨-, ⟨lower, freshBelow⟩, -⟩ := isNumberedBelow_append.1 fresh
    rw [Forest.trees_append, Forest.trees_cons]
    -- only nodes that are no wrappers are joined by others
    have plain : s.data.isWrapper = false ∧ t.isWrapper = false := by
      cases meets with
      | twin own _ => exact absurd own (Nat.ne_of_lt lower)
      | alike _ joined _ => simp_all [joins_regrowth, step]
    have settled : (Step.settle (step ⟨(t, number), e, cs⟩) s).1.isWrapper = false :=
      settle_of_both (P := fun x => x.isWrapper = false) plain.2 plain.1
    rcases List.mem_append.1 hm with hm | hm
    · exact .inl (by simp [hm])
    · rcases List.mem_cons.1 hm with rfl | hm
      · simp [settled] at wrapper
      · rcases List.mem_append.1 hm with hm | hm
        · exact .inr (.inr ⟨cs, freshBelow, fun x hx => by simp [hx], hm⟩)
        · exact .inl (by simp [hm])
  · have unfound : worldRules.finds s.data (g.reverse.map (fun n => n.data.1)) = false := by
      have := match?_eq_none.1 new.unmatched
      rwa [List.map_map] at this
    have strange : ∀ n ∈ g, n.data.2 ≠ s.origin :=
      fun n hn => Nat.ne_of_lt (older_of_isNumberedBelow fresh n hn)
    rw [insertAll_of_unfound (r := regrowth []) Step.settle_self strange unfound
      (Rules.outranked_eq_false rfl _ _) empty, Forest.trees_append, Forest.trees_cons,
      Forest.trees_nil, List.append_nil] at hm
    rcases List.mem_append.1 hm with hm | hm
    · exact .inl hm
    · rcases List.mem_cons.1 hm with rfl | hm
      · exact .inr (.inl ⟨empty, rfl⟩)
      · exact .inr (.inr ⟨[], trivial, by simp [Forest.trees_nil], hm⟩)

/-- A tree comes of a step on the paths, and it holds what grows from the rests of the paths through
its number. -/
structure HoldsRests (paths : List (Path Tag)) (m : Node (Tag × Nat)) : Prop where
  step : ∃ s ∈ paths.flatten, (s.data, s.origin) = m.data
  children : m.children = insertAll (regrowth []) (paths.filterMap (after? m.data.2)) []

theorem HoldsRests.mono {paths more : List (Path Tag)} {m : Node (Tag × Nat)}
    (h : HoldsRests paths m) (sub : ∀ s ∈ paths.flatten, s ∈ more.flatten)
    (same : more.filterMap (after? m.data.2) = paths.filterMap (after? m.data.2)) :
    HoldsRests more m := by
  obtain ⟨⟨s, hs, own⟩, children⟩ := h
  exact ⟨⟨s, sub s hs, own⟩, by rw [same, children]⟩

theorem holdsRests_root {s : Step Tag} {below : List (Path Tag)} (some : below ≠ []) :
    HoldsRests (below.map (s :: ·))
      ⟨(s.data, s.origin), s.extra, insertAll (regrowth []) below []⟩ := by
  obtain ⟨p, hp⟩ := List.exists_mem_of_ne_nil _ some
  refine ⟨⟨s, List.mem_flatten.2 ⟨_, List.mem_map_of_mem hp, List.mem_cons_self⟩, rfl⟩, ?_⟩
  simp only [filterMap_after?_own]

theorem HoldsRests.root {s : Step Tag} {below : List (Path Tag)} {m : Node (Tag × Nat)}
    (h : HoldsRests (below.filter (fun p => !p.isEmpty)) m) (other : s.origin ≠ m.data.2) :
    HoldsRests (below.map (s :: ·)) m := by
  refine h.mono (fun x hx => ?_) ?_
  · obtain ⟨p, hp, hx⟩ := List.mem_flatten.1 hx
    exact List.mem_flatten.2 ⟨_, List.mem_map_of_mem (List.mem_filter.1 hp).1,
      List.mem_cons_of_mem _ hx⟩
  · rw [filterMap_after?_other other, filterMap_after?_nonempty]

/-- What grows from paths of a forest upon what has grown before: every wrapper was there before,
or comes from one of the forest and holds what grows from the rests of the paths through its
number. -/
theorem wrappers_insertAll {t : Forest Tag} {first : Nat} {kept : List (Path Tag)}
    {g : Growth Tag} (trims : Trims kept (Forest.pathsFrom first t)) (nonempty : [] ∉ kept)
    (older : Forest.IsNumberedBelow first g) {m : Node (Tag × Nat)}
    (hm : m ∈ Forest.trees (insertAll (regrowth []) kept g)) (wrapper : m.data.1.isWrapper = true) :
    m ∈ Forest.trees g ∨ (∃ n ∈ Forest.trees (Forest.numbered first t), n.data = m.data) ∧
      HoldsRests kept m := by
  induction t using Forest.induction generalizing first kept g with
  | nil =>
    cases trims
    exact .inl hm
  | cons d e cs rest hcs hrest =>
    rw [Forest.pathsFrom, Forest.paths_eq_rests] at trims
    obtain ⟨own, beside, rfl, hown, hbeside⟩ := exists_of_trims_append trims
    obtain ⟨nonemptyOwn, nonemptyBeside⟩ : [] ∉ own ∧ [] ∉ beside := by
      simpa using nonempty
    obtain ⟨below, rfl, hbelow⟩ := exists_of_trims_map hown nonemptyOwn
    have size := Forest.size_eq d e cs
    have within : ∀ p ∈ below.map ((⟨d, e, first⟩ : Step Tag) :: ·), ∀ x ∈ p,
        x.origin < first + Node.size ⟨d, e, cs⟩ := by
      intro q hq x hx
      obtain ⟨p, hp, short⟩ := hown.exists_longer hq
      exact Forest.lt_of_mem_own hp (short.subset hx)
    have beyond : ∀ p ∈ beside, ∀ x ∈ p, first + Node.size ⟨d, e, cs⟩ ≤ x.origin := by
      intro q hq x hx
      obtain ⟨p, hp, short⟩ := hbeside.exists_longer hq
      exact (Forest.origin_bounds hp (short.subset hx)).1
    -- what holds the rests of the paths of one part holds those of all paths
    have left {m : Node (Tag × Nat)} (low : m.data.2 < first + Node.size ⟨d, e, cs⟩)
        (h : HoldsRests (below.map ((⟨d, e, first⟩ : Step Tag) :: ·)) m) :
        HoldsRests (below.map ((⟨d, e, first⟩ : Step Tag) :: ·) ++ beside) m :=
      h.mono (by simp +contextual) (filterMap_after?_left beyond low)
    rw [insertAll_append] at hm
    rw [Forest.numbered, Node.numbered, Forest.trees_cons]
    have grown : Forest.IsNumberedBelow (first + Node.size ⟨d, e, cs⟩)
        (insertAll (regrowth []) (below.map ((⟨d, e, first⟩ : Step Tag) :: ·)) g) :=
      isNumberedBelow_insertAll within (isNumberedBelow_mono (by omega) older)
    rcases hrest hbeside nonemptyBeside grown hm with hm | ⟨⟨n, hn, data⟩, holds⟩
    · rcases mem_trees_insertAll_root (s := ⟨d, e, first⟩) older hm wrapper with
        hm | ⟨some, rfl⟩ | ⟨h, fresh, sub, hm⟩
      · exact .inl hm
      · exact .inr ⟨⟨_, List.mem_cons_self, rfl⟩,
          left (by simp only; omega) (holdsRests_root some)⟩
      · rw [← insertAll_filter_nonempty] at hm
        rcases hcs hbelow.below (by simp) (isNumberedBelow_mono (Nat.le_succ first) fresh) hm with
          hm | ⟨⟨n, hn, data⟩, holds⟩
        · exact .inl (sub m hm)
        · have bounds := Forest.number_of_mem_trees hn
          rw [data] at bounds
          exact .inr ⟨⟨n, by simp [hn], data⟩,
            left (by omega) (holds.root (by simp only; omega))⟩
    · have bounds := Forest.number_of_mem_trees hn
      rw [data] at bounds
      exact .inr ⟨⟨n, by simp [hn], data⟩,
        holds.mono (by simp +contextual) (filterMap_after?_right within bounds.1)⟩

end Growth

end WorldMarkup
