import WorldMarkup.Proofs.Tree.Refolding

/-!
Trails: tags that are met one below the other from a root down. Main statements: a forest has the
trails of its paths, and what grows from paths that agree has their trails and no others.
-/

set_option autoImplicit false
set_option relaxedAutoImplicit false

namespace WorldMarkup

/-- Nodes one below the other, the first of them a root, speak of what the trail tells. -/
def Forest.HasTrail : List Tag → Forest Tag → Prop
  | [], _ => True
  | d :: trail, t => ∃ n ∈ t, n.data.Kin d ∧ Forest.HasTrail trail n.children

/-- The first steps of a path speak of what the trail tells. -/
def Path.HasTrail : List Tag → Path Tag → Prop
  | [], _ => True
  | _ :: _, [] => False
  | d :: trail, s :: rest => s.data.Kin d ∧ Path.HasTrail trail rest

namespace Forest

variable {d : Tag} {trail : List Tag} {t u : Forest Tag}

theorem not_hasTrail_nil : ¬ HasTrail (d :: trail) [] := by
  simp [HasTrail]

theorem hasTrail_append :
    HasTrail (d :: trail) (t ++ u) ↔ HasTrail (d :: trail) t ∨ HasTrail (d :: trail) u := by
  simp only [HasTrail, List.mem_append, or_and_right, exists_or]

theorem hasTrail_cons {n : Node Tag} :
    HasTrail (d :: trail) (n :: t) ↔
      (n.data.Kin d ∧ HasTrail trail n.children) ∨ HasTrail (d :: trail) t := by
  simp only [HasTrail, List.mem_cons, or_and_right, exists_or, exists_eq_left]

theorem hasTrail_iff_rests {first : Nat}
    (h : ∀ d trail, HasTrail (d :: trail) t ↔
      ∃ p ∈ Forest.pathsFrom first t, Path.HasTrail (d :: trail) p) (trail : List Tag) :
    HasTrail trail t ↔ ∃ q ∈ Forest.rests first t, Path.HasTrail trail q := by
  cases trail with
  | nil =>
    obtain ⟨q, hq⟩ := List.exists_mem_of_ne_nil _ (rests_ne_nil first t)
    exact iff_of_true trivial ⟨q, hq, trivial⟩
  | cons d trail =>
    cases t with
    | nil => simp [HasTrail, rests, Path.HasTrail]
    | cons n t => exact h d trail

theorem hasTrail_iff_paths (first : Nat) :
    HasTrail (d :: trail) t ↔ ∃ p ∈ Forest.pathsFrom first t, Path.HasTrail (d :: trail) p := by
  induction t using Forest.induction generalizing d trail first with
  | nil => simp [HasTrail, Forest.pathsFrom]
  | cons x e cs rest hcs hrest =>
    rw [hasTrail_cons, hrest (first + Node.size ⟨x, e, cs⟩),
      hasTrail_iff_rests (fun _ _ => hcs (first + 1)) trail, Forest.pathsFrom, paths_eq_rests]
    simp only [List.mem_append, List.mem_map, or_and_right, exists_or]
    refine or_congr_left ?_
    constructor
    · rintro ⟨kin, q, hq, follows⟩
      exact ⟨_, ⟨q, hq, rfl⟩, kin, follows⟩
    · rintro ⟨-, ⟨q, hq, rfl⟩, kin, follows⟩
      exact ⟨kin, q, hq, follows⟩

end Forest

namespace Growth

variable {label : Nat → Tag} {order : List Category} {trail : List Tag}

/-- Laying in a path adds its trails and no others. -/
theorem hasTrail_insert {p : Path Tag} {g : Growth Tag}
    (labelled : ∀ s ∈ p, s.data.Kin (label s.origin)) (hg : Forest.Grows label freely () g) :
    Forest.HasTrail trail (insert (regrowth order) p g).forest ↔
      Forest.HasTrail trail g.forest ∨ Path.HasTrail trail p := by
  induction p generalizing g trail with
  | nil => cases trail <;> simp [insert, Forest.HasTrail, Path.HasTrail]
  | cons s rest ih =>
    cases trail with
    | nil => simp [Forest.HasTrail]
    | cons x trail =>
      obtain ⟨own, later⟩ := List.forall_mem_cons.1 labelled
      rcases insert_shape (labelled_of_grows hg) own rest with
        ⟨before, n, after, d, e, rfl, kin, kin', laid⟩ | ⟨-, before, after, rfl, laid, -, -⟩
      · -- the node that the step joins goes on speaking of what both speak of
        obtain ⟨-, below, -⟩ := grows_append.1 hg
        have inside : Forest.Grows label freely () n.children := by
          cases n
          exact below.2.2
        have node : d.Kin x ↔ n.data.1.Kin x := ⟨kin.trans, kin.symm.trans⟩
        have step : s.data.Kin x ↔ d.Kin x := ⟨kin'.symm.trans, kin'.trans⟩
        rw [laid, forest_replace, forest_replace, Forest.hasTrail_append, Forest.hasTrail_append,
          Forest.hasTrail_cons, Forest.hasTrail_cons, ih later inside, Path.HasTrail, step]
        simp only [node]
        tauto
      · have nothing : Forest.Grows label freely () [] := trivial
        have within : Forest.HasTrail trail (insert (regrowth order) rest []).forest ↔
            Path.HasTrail trail rest := by
          rw [ih later nothing]
          cases trail with
          | nil => simp [Path.HasTrail]
          | cons y trail => exact or_iff_right Forest.not_hasTrail_nil
        rw [laid, forest_replace, forest_append, Forest.hasTrail_append, Forest.hasTrail_append,
          Forest.hasTrail_cons, within, Path.HasTrail]
        tauto

theorem hasTrail_insertAll {paths : List (Path Tag)} {g : Growth Tag}
    (labelled : ∀ p ∈ paths, ∀ s ∈ p, s.data.Kin (label s.origin))
    (hg : Forest.Grows label freely () g) :
    Forest.HasTrail trail (insertAll (regrowth order) paths g).forest ↔
      Forest.HasTrail trail g.forest ∨ ∃ p ∈ paths, Path.HasTrail trail p := by
  induction paths generalizing g with
  | nil => simp [insertAll_nil]
  | cons p paths ih =>
    obtain ⟨own, others⟩ := List.forall_mem_cons.1 labelled
    rw [insertAll_cons, ih others (grows_insert respects_freely own (stands_freely p) hg),
      hasTrail_insert own hg, or_assoc]
    simp only [List.mem_cons, or_and_right, exists_or, exists_eq_left]

end Growth

/-- What grows from paths that agree has their trails and no others. -/
theorem Forest.hasTrail_ofPaths {paths : List (Path Tag)} (agree : Path.Agree paths) {d : Tag}
    {trail : List Tag} :
    Forest.HasTrail (d :: trail) (Forest.ofPaths worldRules paths) ↔
      ∃ p ∈ paths, Path.HasTrail (d :: trail) p := by
  have labelled : ∀ p ∈ paths, ∀ s ∈ p, s.data.Kin (Path.label paths s.origin) :=
    fun p hp s hs => agree.kin_label (List.mem_flatten.2 ⟨p, hp, hs⟩)
  have nothing : Forest.Grows (Path.label paths) Growth.freely () [] := trivial
  show HasTrail (d :: trail) (Growth.insertAll (Growth.regrowth []) paths []).forest ↔ _
  rw [Growth.hasTrail_insertAll labelled nothing]
  exact or_iff_right not_hasTrail_nil

end WorldMarkup
