import WorldMarkup.Proofs.Tree.Growth
import WorldMarkup.Proofs.Tree.Paths
import WorldMarkup.Tree.Outline

/-!
A forest taken apart and grown back. Laying in the paths of a forest lays in its nodes one by one
in preorder, each behind its siblings, as long as no node is taken for a sibling before it. Main
statements: a forest can be taken apart exactly when it is nowhere too deep and every wrapper has
children, and when siblings are told apart it grows back as it was.
-/

set_option autoImplicit false
set_option relaxedAutoImplicit false

namespace WorldMarkup

variable {α κ : Type}

/-! ### The nodes of a forest -/

mutual

def Node.placed (depth : Nat) : Node α → List (Nat × Node α)
  | ⟨d, e, cs⟩ => (depth, ⟨d, e, cs⟩) :: Forest.placed (depth + 1) cs

def Forest.placed (depth : Nat) : Forest α → List (Nat × Node α)
  | [] => []
  | n :: rest => n.placed depth ++ Forest.placed depth rest

end

theorem Forest.placed_cons (depth : Nat) (d : α) (e : Extra) (cs rest : Forest α) :
    Forest.placed depth (⟨d, e, cs⟩ :: rest) =
      (depth, ⟨d, e, cs⟩) :: (Forest.placed (depth + 1) cs ++ Forest.placed depth rest) := rfl

/-- A forest has no fault exactly when no node lies beyond the limit and every wrapper has
children. -/
theorem Forest.faultAt?_eq_none {isWrapper : α → Bool} {depth : Nat} {t : Forest α} :
    Forest.faultAt? isWrapper depth t = none ↔
      ∀ x ∈ Forest.placed depth t,
        x.1 < maxDepth ∧ (x.2.children = [] → isWrapper x.2.data = false) := by
  induction t using Forest.induction generalizing depth with
  | nil => simp [Forest.faultAt?, Forest.placed]
  | cons d e cs rest hcs hrest =>
    rw [Forest.faultAt?, Option.or_eq_none_iff, hrest, Forest.placed_cons, List.forall_mem_cons,
      List.forall_mem_append, ← hcs, ← and_assoc]
    refine and_congr_left (fun _ => ?_)
    unfold Node.fault?
    by_cases deep : maxDepth ≤ depth
    · have beyond : ¬ depth < maxDepth := by omega
      simp [deep, beyond]
    · have within : depth < maxDepth := by omega
      cases cs with
      | nil => simp [deep, within, Forest.faultAt?]
      | cons n cs => simp [deep, within]

/-- A forest can be taken apart exactly when it has no fault, and then into its paths. -/
theorem Outline.ofForest_eq_ok {r : Rules α κ} {t : Forest α} {o : Outline α κ} :
    Outline.ofForest r t = .ok o ↔
      Forest.fault? r.isWrapper t = none ∧ o = ⟨r, Forest.paths t⟩ := by
  unfold Outline.ofForest
  cases Forest.fault? r.isWrapper t with
  | none => simp [eq_comm]
  | some fault => simp

theorem Outline.faultless_of_ofPaths {r : Rules α κ} {paths : List (Path α)}
    {o : Outline α κ} (h : Outline.ofPaths r paths = .ok o) :
    ∀ p ∈ paths, Path.fault? r.isWrapper p = none := by
  unfold Outline.ofPaths at h
  split at h
  · simp at h
  · rename_i none
    exact List.findSome?_eq_none_iff.1 none

/-! ### Growing back -/

mutual

def Node.numbered (first : Nat) : Node α → Node (α × Nat)
  | ⟨d, e, cs⟩ => ⟨(d, first), e, Forest.numbered (first + 1) cs⟩

/-- A forest as it grows back, its nodes numbered in preorder. -/
def Forest.numbered (first : Nat) : Forest α → Growth α
  | [] => []
  | n :: rest => n.numbered first :: Forest.numbered (first + n.size) rest

end

theorem Forest.forest_numbered (first : Nat) (t : Forest α) :
    Growth.forest (Forest.numbered first t) = t := by
  unfold Growth.forest
  induction t using Forest.induction generalizing first with
  | nil => rfl
  | cons d e cs rest hcs hrest =>
    simp only [Forest.numbered, Node.numbered, Forest.map, Node.map, hcs, hrest]

theorem Forest.isNumberedBelow_numbered (t : Forest Tag) (first : Nat) :
    Forest.IsNumberedBelow (first + Forest.size t) (Forest.numbered first t) := by
  induction t using Forest.induction generalizing first with
  | nil => trivial
  | cons d e cs rest hcs hrest =>
    simp only [Forest.size, Forest.size_eq, Forest.numbered, Node.numbered]
    refine ⟨⟨by omega, ?_⟩, ?_⟩
    · exact Growth.isNumberedBelow_mono (by omega) (hcs (first + 1))
    · exact Growth.isNumberedBelow_mono (by omega) (hrest (first + (1 + Forest.size cs)))

section

variable [DecidableEq κ] {r : Rules α κ}

/-- Whether the search for a sibling that counts as `d` comes to one; the siblings are told from
the last to the first. -/
def Rules.finds (r : Rules α κ) (d : α) : List α → Bool
  | [] => false
  | x :: rest =>
    (!r.isWrapper d && !r.isWrapper x && r.same x d) ||
      r.independent (r.category x) (r.category d) && r.finds d rest

theorem Growth.match?_eq_none {s : Step α} {backward : List (Step α)} :
    Growth.match? r s backward = none ↔ r.finds s.data (backward.map Step.data) = false := by
  induction backward with
  | nil => simp [Growth.match?, Rules.finds]
  | cons x rest ih =>
    rw [Growth.match?, List.map_cons, Rules.finds]
    by_cases joined : (!r.isWrapper s.data && !r.isWrapper x.data && r.same x.data s.data) = true
    · simp [joined]
    · rw [Bool.not_eq_true] at joined
      rw [joined]
      cases passed : r.independent (r.category x.data) (r.category s.data) <;> simp [ih]

theorem Rules.finds_eq_false {d : α} {backward : List α}
    (h : ∀ x ∈ backward, r.isWrapper x = false → r.isWrapper d = false → r.same x d = false) :
    r.finds d backward = false := by
  induction backward with
  | nil => rfl
  | cons x rest ih =>
    have hx := h x (by simp)
    have hrest := ih (fun y hy => h y (by simp [hy]))
    rw [Rules.finds, hrest]
    cases hd : r.isWrapper d <;> cases hw : r.isWrapper x <;> simp_all

mutual

def Node.Settled (r : Rules α κ) : Node α → Prop
  | ⟨_, _, cs⟩ => Forest.SettledAfter r [] cs

/-- No node of a forest, nor any below, counts as one of the siblings before it; those before the
forest are told from the last to the first. -/
def Forest.SettledAfter (r : Rules α κ) (backward : List α) : Forest α → Prop
  | [] => True
  | n :: rest =>
    r.finds n.data backward = false ∧ n.Settled r ∧
      Forest.SettledAfter r (n.data :: backward) rest

end

/-- No node of a forest counts as one of the siblings before it. -/
def Forest.Settled (r : Rules α κ) (t : Forest α) : Prop := Forest.SettledAfter r [] t

mutual

def Node.InPlace (r : Rules α κ) : Node α → Prop
  | ⟨_, _, cs⟩ => Forest.InPlaceAfter r [] cs

/-- Every node of a forest, and every node below, stands where it would be laid: it counts as none
of the siblings before it, and ranks behind them; those before the forest are told from the last to
the first. -/
def Forest.InPlaceAfter (r : Rules α κ) (backward : List α) : Forest α → Prop
  | [] => True
  | n :: rest =>
    r.finds n.data backward = false ∧ r.outranked n.data backward = false ∧ n.InPlace r ∧
      Forest.InPlaceAfter r (n.data :: backward) rest

end

/-- Every node of a forest stands where it would be laid. -/
def Forest.InPlace (r : Rules α κ) (t : Forest α) : Prop := Forest.InPlaceAfter r [] t

theorem Rules.outranked_eq_false (unranked : r.ranking = []) (d : α) (backward : List α) :
    r.outranked d backward = false := by
  cases backward <;> simp [outranked, ranksBelow, rank?, unranked]

theorem Forest.SettledAfter.inPlaceAfter (unranked : r.ranking = []) {t : Forest α}
    {backward : List α} (h : Forest.SettledAfter r backward t) :
    Forest.InPlaceAfter r backward t := by
  induction t using Forest.induction generalizing backward with
  | nil => trivial
  | cons d e cs rest hcs hrest =>
    obtain ⟨unfound, below, beside⟩ := h
    exact ⟨unfound, Rules.outranked_eq_false unranked _ _, hcs below, hrest beside⟩

theorem Forest.InPlaceAfter.settledAfter {t : Forest α} {backward : List α}
    (h : Forest.InPlaceAfter r backward t) : Forest.SettledAfter r backward t := by
  induction t using Forest.induction generalizing backward with
  | nil => trivial
  | cons d e cs rest hcs hrest =>
    obtain ⟨unfound, -, below, beside⟩ := h
    exact ⟨unfound, hcs below, hrest beside⟩

/-- Paths that start with one step go below the node that stands for it, if joining a step to
itself changes nothing. -/
theorem Growth.insertAll_of_twin (merges : ∀ s : Step α, r.combine s s = (s.data, s.extra))
    {s : Step α} {before after cs : Growth α} (others : ∀ n ∈ after, n.data.2 ≠ s.origin)
    (paths : List (Path α)) :
    insertAll r (paths.map (s :: ·)) (before ++ ⟨(s.data, s.origin), s.extra, cs⟩ :: after) =
      before ++ ⟨(s.data, s.origin), s.extra, insertAll r paths cs⟩ :: after := by
  induction paths generalizing cs with
  | nil => rfl
  | cons p paths ih =>
    have meets : Meets r s (after.reverse.map step)
        (step ⟨(s.data, s.origin), s.extra, cs⟩) (before.reverse.map step) := by
      apply Meets.twin rfl
      intro y hy
      obtain ⟨n, hn, rfl⟩ := List.mem_map.1 hy
      exact others n (List.mem_reverse.1 hn)
    have same : r.combine (step ⟨(s.data, s.origin), s.extra, cs⟩) s = (s.data, s.extra) :=
      merges s
    rw [List.map_cons, insertAll_cons, insert_of_meets p meets, same, ih, insertAll_cons]

theorem Growth.overtaken_eq_zero {s : Step α} {backward : List (Step α)}
    (last : r.outranked s.data (backward.map Step.data) = false) : overtaken r s backward = 0 := by
  rw [overtaken_eq]
  cases backward with
  | nil => rfl
  | cons x rest =>
    have behind : r.ranksBelow s.data x.data = false := last
    simp [behind]

theorem Growth.insertAll_of_unfound (merges : ∀ s : Step α, r.combine s s = (s.data, s.extra))
    {s : Step α} {g : Growth α} (strange : ∀ n ∈ g, n.data.2 ≠ s.origin)
    (unfound : r.finds s.data (g.reverse.map (fun n => n.data.1)) = false)
    (last : r.outranked s.data (g.reverse.map (fun n => n.data.1)) = false)
    {paths : List (Path α)} (nonempty : paths ≠ []) :
    insertAll r (paths.map (s :: ·)) g =
      g ++ [⟨(s.data, s.origin), s.extra, insertAll r paths []⟩] := by
  have isNew : IsNew r s ((g ++ []).reverse.map step) := by
    rw [List.append_nil]
    constructor
    · intro y hy
      obtain ⟨n, hn, rfl⟩ := List.mem_map.1 hy
      exact strange n (List.mem_reverse.1 hn)
    · rw [match?_eq_none, List.map_map]
      exact unfound
  have none : overtaken r s ((g ++ []).reverse.map step) = 0 := by
    apply overtaken_eq_zero
    rw [List.append_nil, List.map_map]
    exact last
  cases paths with
  | nil => exact absurd rfl nonempty
  | cons p paths =>
    have laid := insert_of_isNew p isNew none
    rw [List.append_nil] at laid
    rw [List.map_cons, insertAll_cons, laid, insertAll_of_twin merges (by simp), insertAll_cons]

theorem Growth.insertAll_rests {β : Type} (f : Path β → Path α) (hf : f [] = []) (first : Nat)
    (cs : Forest β) (g : Growth α) :
    insertAll r ((Forest.rests first cs).map f) g =
      insertAll r ((Forest.pathsFrom first cs).map f) g := by
  cases cs with
  | nil => simp [Forest.rests, Forest.pathsFrom, insertAll_cons, insertAll_nil, hf, insert]
  | cons n cs => rfl

/-- Laying in the paths of a forest whose nodes stand in place sets it behind what has grown
before. -/
theorem Growth.insertAll_of_inPlace (merges : ∀ s : Step α, r.combine s s = (s.data, s.extra))
    {t : Forest α} {first : Nat} {g : Growth α}
    (inPlace : Forest.InPlaceAfter r (g.reverse.map (fun n => n.data.1)) t)
    (older : ∀ n ∈ g, n.data.2 < first) :
    insertAll r (Forest.pathsFrom first t) g = g ++ Forest.numbered first t := by
  induction t using Forest.induction generalizing first g with
  | nil => simp [Forest.pathsFrom, Forest.numbered, insertAll_nil]
  | cons d e cs rest hcs hrest =>
    obtain ⟨unfound, last, below, beside⟩ := inPlace
    have inside : insertAll r (Forest.rests (first + 1) cs) [] = Forest.numbered (first + 1) cs := by
      cases cs with
      | nil => rfl
      | cons n cs => exact hcs below (by simp)
    rw [Forest.pathsFrom, Forest.paths_eq_rests, insertAll_append,
      insertAll_of_unfound merges (s := ⟨d, e, first⟩) (fun n hn => Nat.ne_of_lt (older n hn))
        unfound last (Forest.rests_ne_nil _ _), inside, hrest]
    · simp [Forest.numbered, Node.numbered]
    · simpa using beside
    · intro n hn
      rw [Forest.size_eq]
      rcases List.mem_append.1 hn with hn | hn
      · have := older n hn
        omega
      · obtain rfl := List.mem_singleton.1 hn
        show first < first + (1 + Forest.size cs)
        omega

theorem Growth.insertAll_pathsFrom (merges : ∀ s : Step α, r.combine s s = (s.data, s.extra))
    (unranked : r.ranking = []) {t : Forest α} {first : Nat} {g : Growth α}
    (settled : Forest.SettledAfter r (g.reverse.map (fun n => n.data.1)) t)
    (older : ∀ n ∈ g, n.data.2 < first) :
    insertAll r (Forest.pathsFrom first t) g = g ++ Forest.numbered first t :=
  insertAll_of_inPlace merges (settled.inPlaceAfter unranked) older

/-- A forest whose nodes stand in place grows back from its paths. -/
theorem Forest.ofPaths_of_inPlace (merges : ∀ s : Step α, r.combine s s = (s.data, s.extra))
    {t : Forest α} (inPlace : Forest.InPlace r t) : Forest.ofPaths r (Forest.paths t) = t := by
  have laid : Growth.insertAll r (Forest.pathsFrom 0 t) [] = [] ++ Forest.numbered 0 t :=
    Growth.insertAll_of_inPlace merges inPlace (by simp)
  rw [Forest.ofPaths, Growth.ofPaths_eq_insertAll, Forest.paths, laid, List.nil_append,
    Forest.forest_numbered]

/-- A settled forest grows back from its paths. -/
theorem Forest.ofPaths_paths (merges : ∀ s : Step α, r.combine s s = (s.data, s.extra))
    (unranked : r.ranking = []) {t : Forest α} (settled : Forest.Settled r t) :
    Forest.ofPaths r (Forest.paths t) = t :=
  ofPaths_of_inPlace merges (settled.inPlaceAfter unranked)

/-! ### Siblings told apart -/

/-- The later of two siblings does not count as the earlier one. -/
def Node.ToldFrom (r : Rules α κ) (n m : Node α) : Prop :=
  r.isWrapper n.data = false → r.isWrapper m.data = false → r.same n.data m.data = false

/-- No node counts as a sibling before it: not at the roots, nor below any node. -/
structure Forest.ToldApart (r : Rules α κ) (t : Forest α) : Prop where
  roots : t.Pairwise (Node.ToldFrom r)
  below : ∀ x ∈ Forest.placed 0 t, x.2.children.Pairwise (Node.ToldFrom r)

theorem Forest.settledAfter_of_toldApart {t : Forest α} {depth : Nat} {backward : List α}
    (before : ∀ n ∈ t, ∀ x ∈ backward,
      r.isWrapper x = false → r.isWrapper n.data = false → r.same x n.data = false)
    (roots : t.Pairwise (Node.ToldFrom r))
    (below : ∀ x ∈ Forest.placed depth t, x.2.children.Pairwise (Node.ToldFrom r)) :
    Forest.SettledAfter r backward t := by
  induction t using Forest.induction generalizing depth backward with
  | nil => trivial
  | cons d e cs rest hcs hrest =>
    rw [Forest.placed_cons, List.forall_mem_cons, List.forall_mem_append] at below
    obtain ⟨own, inside, beside⟩ := below
    obtain ⟨next, later⟩ := List.pairwise_cons.1 roots
    refine ⟨Rules.finds_eq_false (before _ (by simp)), hcs (by simp) own inside, ?_⟩
    apply hrest _ later beside
    intro n hn x hx
    rcases List.mem_cons.1 hx with rfl | hx
    · exact next n hn
    · exact before n (by simp [hn]) x hx

/-- Where siblings are told apart nothing is lost by taking a forest apart: it can be taken apart
exactly when it has no fault, and it grows back as it was. -/
theorem Outline.forest_of_ofForest (r : Rules α κ) (t : Forest α)
    (merges : ∀ s : Step α, r.combine s s = (s.data, s.extra)) (unranked : r.ranking = [])
    (apart : Forest.ToldApart r t) :
    ((∃ o, Outline.ofForest r t = .ok o) ↔
      ∀ x ∈ Forest.placed 0 t,
        x.1 < maxDepth ∧ (x.2.children = [] → r.isWrapper x.2.data = false)) ∧
    ∀ o, Outline.ofForest r t = .ok o → o.forest = t := by
  constructor
  · rw [← Forest.faultAt?_eq_none]
    constructor
    · rintro ⟨o, h⟩
      exact (Outline.ofForest_eq_ok.1 h).1
    · intro faultless
      exact ⟨_, Outline.ofForest_eq_ok.2 ⟨faultless, rfl⟩⟩
  · intro o h
    obtain ⟨-, rfl⟩ := Outline.ofForest_eq_ok.1 h
    apply Forest.ofPaths_paths merges unranked
    exact Forest.settledAfter_of_toldApart (by simp) apart.roots apart.below

end

/-- A hall by day and by night, and what stands at its door. -/
def hallWithDoor : Forest Tag :=
  [.branch (.room "hall")
    [.branch (.field .name) [.leaf (.text "Hall"), .leaf .space],
      .branch .conditional
        [.branch (.onCondition "night") [.leaf (.exit "out" "yard")], .leaf .fallthrough],
      .branch .conditional [.leaf (.onCondition "night")]],
    .leaf (.feature "door")]

theorem Outline.forest_of_ofForest_hallWithDoor :
    (∀ s : Step Tag, worldRules.combine s s = (s.data, s.extra)) ∧ worldRules.ranking = [] ∧
      Forest.ToldApart worldRules hallWithDoor ∧
      ∃ o, Outline.ofForest worldRules hallWithDoor = .ok o ∧ o.forest = hallWithDoor := by
  have apart : Forest.ToldApart worldRules hallWithDoor := by
    constructor
    · unfold Node.ToldFrom
      decide
    · unfold Node.ToldFrom
      decide
  have restored := Outline.forest_of_ofForest worldRules hallWithDoor Step.settle_self rfl apart
  obtain ⟨o, taken⟩ := restored.1.2 (by decide)
  exact ⟨Step.settle_self, rfl, apart, o, taken, restored.2 o taken⟩

end WorldMarkup
