import Mathlib.Data.List.Sort
import WorldMarkup.Proofs.Tree.StandIns

/-!
Keeping some paths of a forest. A wrapper on a kept path keeps all its branches: a branch that no
kept path takes is stood in for. Main statement: one more filter keeps the wanted paths and, beside
them, exactly one path for each branch in need.
-/

set_option autoImplicit false
set_option relaxedAutoImplicit false

namespace WorldMarkup

variable {α κ : Type}

/-! ### Numbers in order of first occurrence -/

section Increasing

theorem pairwise_lt_eraseDups : ∀ {l : List Nat}, l.Pairwise (· ≤ ·) →
    l.eraseDups.Pairwise (· < ·)
  | [], _ => by simp
  | n :: l, h => by
    obtain ⟨least, rest⟩ := List.pairwise_cons.1 h
    have shorter : (l.filter (fun m => !m == n)).length < l.length + 1 := by
      have := List.length_filter_le (fun m => !m == n) l
      omega
    rw [List.eraseDups_cons, List.pairwise_cons]
    constructor
    · intro m hm
      obtain ⟨hm, other⟩ := List.mem_filter.1 (List.mem_eraseDups.1 hm)
      have := least m hm
      have : m ≠ n := by simpa using other
      omega
    · exact pairwise_lt_eraseDups (rest.filter _)
termination_by l => l.length

end Increasing

namespace Path

/-! ### Filtering a lineage -/

section Lineage

variable {isWrapper : α → Bool} {wanted : Path α → Bool} {paths : List (Path α)}

/-- The wrappers on wanted paths, by number. -/
def liveWrappers (isWrapper : α → Bool) (wanted : Path α → Bool) (paths : List (Path α)) :
    List Nat :=
  (((paths.filter wanted).map (wrappersAndBranches isWrapper)).flatMap Prod.fst).eraseDups

def liveBranches (isWrapper : α → Bool) (wanted : Path α → Bool) (paths : List (Path α)) :
    List Nat :=
  (((paths.filter wanted).map (wrappersAndBranches isWrapper)).flatMap Prod.snd).eraseDups

/-- A branch is in need when its wrapper is among the live ones and it is not. -/
theorem IsLineage.inNeed_iff (h : IsLineage isWrapper paths) {x y : Path α} {w b : Step α}
    (hp : x ++ w :: b :: y ∈ paths) (wrapper : isWrapper w.data = true) :
    InNeed isWrapper wanted paths w b ↔
      w.origin ∈ liveWrappers isWrapper wanted paths ∧
        b.origin ∉ liveBranches isWrapper wanted paths := by
  have live : w.origin ∈ liveWrappers isWrapper wanted paths ↔
      ∃ p ∈ paths, wanted p = true ∧ w ∈ p := by
    simp only [liveWrappers, List.mem_eraseDups, List.mem_flatMap, List.mem_map, List.mem_filter]
    constructor
    · rintro ⟨-, ⟨p, ⟨hp', hwanted⟩, rfl⟩, hw⟩
      obtain ⟨s, hs, -, same⟩ := mem_wrappers.1 hw
      obtain ⟨z, z', rfl⟩ := List.append_of_mem hs
      obtain ⟨-, rfl⟩ := h.agree hp' hp same
      exact ⟨_, hp', hwanted, hs⟩
    · rintro ⟨p, hp', hwanted, hw⟩
      exact ⟨_, ⟨p, ⟨hp', hwanted⟩, rfl⟩, mem_wrappers.2 ⟨w, hw, wrapper, rfl⟩⟩
  have kept : b.origin ∈ liveBranches isWrapper wanted paths ↔
      ∃ p ∈ paths, wanted p = true ∧ b ∈ p := by
    simp only [liveBranches, List.mem_eraseDups, List.mem_flatMap, List.mem_map, List.mem_filter]
    have hb : (x ++ [w]) ++ b :: y ∈ paths := by simpa using hp
    constructor
    · rintro ⟨-, ⟨p, ⟨hp', hwanted⟩, rfl⟩, hn⟩
      obtain ⟨z, w', b', z', rfl, -, same⟩ := mem_branches.1 hn
      have hb' : (z ++ [w']) ++ b' :: z' ∈ paths := by simpa using hp'
      obtain ⟨-, rfl⟩ := h.agree hb' hb same
      exact ⟨_, hp', hwanted, by simp⟩
    · rintro ⟨p, hp', hwanted, hbp⟩
      obtain ⟨z, z', rfl⟩ := List.append_of_mem hbp
      obtain ⟨rfl, -⟩ := h.agree hp' hb rfl
      exact ⟨_, ⟨_, ⟨hp', hwanted⟩, rfl⟩,
        mem_branches.2 ⟨x, w, b, z', by simp, wrapper, rfl⟩⟩
  rw [live, kept]
  constructor
  · intro need
    refine ⟨need.live, ?_⟩
    rintro ⟨p, hp', hwanted, hb⟩
    exact need.dropped p hp' hwanted hb
  · rintro ⟨hlive, hkept⟩
    exact ⟨wrapper, hlive, ⟨_, hp, x, y, by simp⟩,
      fun p hp' hwanted hb => hkept ⟨p, hp', hwanted, hb⟩⟩

theorem IsLineage.standIn?_iff (h : IsLineage isWrapper paths) {p q : Path α} (hp : p ∈ paths)
    {n : Nat} :
    standIn? isWrapper (liveWrappers isWrapper wanted paths)
        (liveBranches isWrapper wanted paths) p = some (n, q) ↔
      ∃ w b, InNeed isWrapper wanted paths w b ∧ n = b.origin ∧ StandsIn isWrapper w b p q := by
  have found {n : Nat} {q : Path α} (hfound : standIn? isWrapper
      (liveWrappers isWrapper wanted paths) (liveBranches isWrapper wanted paths) p =
        some (n, q)) :
      ∃ w b, InNeed isWrapper wanted paths w b ∧ n = b.origin ∧ StandsIn isWrapper w b p q := by
    obtain ⟨w, b, wrapper, live, needed, number, stands⟩ := standIn?_eq_some hfound
    have stands' := stands
    obtain ⟨x, y, hpb, -⟩ := stands'
    have need := (h.inNeed_iff (hpb ▸ hp) wrapper).2 ⟨live, needed⟩
    exact ⟨w, b, need, number, stands⟩
  constructor
  · exact found
  · rintro ⟨w, b, need, rfl, stands⟩
    obtain ⟨x, y, hpb, hq⟩ := stands
    obtain ⟨live, needed⟩ := (h.inNeed_iff (hpb ▸ hp) need.wrapper).1 need
    have some := standIn?_isSome (x := x) (y := y) need.wrapper live needed
    rw [← hpb] at some
    obtain ⟨⟨n, q'⟩, hfound⟩ := Option.isSome_iff_exists.1 some
    obtain ⟨w', b', need', rfl, x', y', hpb', hq'⟩ := found hfound
    obtain ⟨rfl, rfl, rfl⟩ := h.unique_need hp need need' hpb hpb'
    rw [hfound, hq, hq']

theorem IsLineage.need_of_mem (h : IsLineage isWrapper paths) {p q : Path α} (hp : p ∈ paths)
    {w b w' b' : Step α} (need : InNeed isWrapper wanted paths w b)
    (stands : StandsIn isWrapper w b p q) (need' : InNeed isWrapper wanted paths w' b')
    (hb' : b' ∈ q) : w = w' ∧ b = b' := by
  obtain ⟨x', y', hpb'⟩ := need'.split h hp (stands.shortens.subset hb')
  obtain ⟨x, y, hpb, -⟩ := stands
  exact (h.unique_need hp need need' hpb hpb').2

/-- What is kept differs, and no two of it take one branch in need. -/
theorem IsLineage.pairwise_kept (h : IsLineage isWrapper paths) {ps : List (Path α)}
    (sub : ps.Sublist paths) (placed : List Nat) :
    (keepOrStandIn isWrapper (liveWrappers isWrapper wanted paths)
      (liveBranches isWrapper wanted paths) wanted placed ps).Pairwise (fun q q' => q ≠ q' ∧
        ∀ w b, InNeed isWrapper wanted paths w b → b ∈ q → b ∉ q') := by
  induction ps generalizing placed with
  | nil => simp [keepOrStandIn]
  | cons p ps ih =>
    have hp : p ∈ paths := sub.subset (by simp)
    have rest := (List.sublist_cons_self p ps).trans sub
    have distinct := List.nodup_cons.1 (sub.nodup h.nodup)
    rw [keepOrStandIn]
    split
    · rename_i hwanted
      apply List.pairwise_cons.2 ⟨?_, ih rest placed⟩
      intro q' hq'
      refine ⟨?_, fun w b need hb => absurd hb (need.dropped p hp hwanted)⟩
      rintro rfl
      rcases mem_keepOrStandIn hq' with ⟨hmem, -⟩ | ⟨p', hp', -, n, found, -⟩
      · exact distinct.1 hmem
      · obtain ⟨w, b, need, -, stands⟩ := (h.standIn?_iff (rest.subset hp')).1 found
        apply need.dropped p hp hwanted
        exact stands.mem.subset (by simp)
    · split
      · exact ih rest placed
      · rename_i n q found
        split
        · exact ih rest placed
        · obtain ⟨w, b, need, rfl, stands⟩ := (h.standIn?_iff hp).1 found
          have own : b ∈ q := stands.mem.subset (by simp)
          apply List.pairwise_cons.2 ⟨?_, ih rest (b.origin :: placed)⟩
          intro q' hq'
          -- the branch is placed, so what comes later does not take it
          have free : b ∉ q' := by
            intro hb
            rcases mem_keepOrStandIn hq' with ⟨hmem, hwanted⟩ | ⟨p', hp', -, m, found', fresh⟩
            · exact need.dropped q' (rest.subset hmem) hwanted hb
            · obtain ⟨w', b', need', rfl, stands'⟩ := (h.standIn?_iff (rest.subset hp')).1 found'
              obtain ⟨-, rfl⟩ := h.need_of_mem (rest.subset hp') need' stands' need hb
              exact fresh (by simp)
          refine ⟨fun same => free (same ▸ own), ?_⟩
          intro w' b' need' hb'
          obtain ⟨-, rfl⟩ := h.need_of_mem hp need stands need' hb'
          exact free

/-- What a filter keeps of a lineage is a lineage. -/
theorem IsLineage.filter (h : IsLineage isWrapper paths) :
    IsLineage isWrapper (Path.filter isWrapper wanted paths) where
  agree hp hp' same := by
    obtain ⟨q, hq, z, rfl⟩ := exists_longer_of_mem hp
    obtain ⟨q', hq', z', rfl⟩ := exists_longer_of_mem hp'
    rw [List.append_assoc] at hq hq'
    exact h.agree hq hq' same
  rising := rises_keepOrStandIn h.rising
  nodup := (h.pairwise_kept (List.Sublist.refl paths) []).imp And.left
  ended q hq := by
    rcases mem_keepOrStandIn hq with ⟨hq, -⟩ | ⟨p, hp, -, n, found, -⟩
    · exact h.ended q hq
    · obtain ⟨w, b, -, -, x, y, rfl, rfl⟩ := (h.standIn?_iff hp).1 found
      cases hb : isWrapper b.data with
      | true => simpa using h.ended _ hp
      | false => simp [hb]
  short q hq := by
    obtain ⟨p, hp, hqp⟩ := exists_longer_of_mem hq
    exact Nat.le_trans hqp.length_le (h.short p hp)

theorem IsLineage.exists_standIn (h : IsLineage isWrapper paths) {w b : Step α}
    (need : InNeed isWrapper wanted paths w b) :
    ∃ q ∈ Path.filter isWrapper wanted paths, [w, b] <:+: q := by
  obtain ⟨p, hp, x, y, rfl⟩ := need.below
  have unwanted : wanted (x ++ [w, b] ++ y) = false := by
    rw [← Bool.not_eq_true]
    intro hwanted
    exact need.dropped _ hp hwanted (by simp)
  have found := (h.standIn?_iff hp).2 ⟨w, b, need, rfl, x, y, by simp, rfl⟩
  obtain ⟨q, hq, p', hp', found'⟩ :=
    exists_mem_keepOrStandIn hp unwanted found (List.not_mem_nil : b.origin ∉ [])
  obtain ⟨w', b', -, number, stands⟩ := (h.standIn?_iff hp').1 found'
  obtain ⟨x', y', rfl⟩ := stands.mem
  obtain ⟨z, rfl⟩ := stands.shortens
  have below : (x ++ [w]) ++ b :: y ∈ paths := by simpa using hp
  have below' : (x' ++ [w']) ++ b' :: (y' ++ z) ∈ paths := by simpa using hp'
  obtain ⟨above, rfl⟩ := h.agree below below' number
  obtain rfl : w = w' := by simpa using (List.append_inj' above rfl).2
  exact ⟨_, hq, x', y', rfl⟩

theorem IsLineage.eq_of_need (h : IsLineage isWrapper paths) {w b : Step α}
    (need : InNeed isWrapper wanted paths w b) {q q' : Path α}
    (hq : q ∈ Path.filter isWrapper wanted paths) (hq' : q' ∈ Path.filter isWrapper wanted paths)
    (hb : b ∈ q) (hb' : b ∈ q') : q = q' := by
  have apart : (Path.filter isWrapper wanted paths).Pairwise (fun q q' => q ≠ q' ∧
      ∀ w b, InNeed isWrapper wanted paths w b → b ∈ q → b ∉ q') :=
    h.pairwise_kept (List.Sublist.refl paths) []
  rw [List.pairwise_iff_getElem] at apart
  obtain ⟨i, hi, rfl⟩ := List.getElem_of_mem hq
  obtain ⟨j, hj, rfl⟩ := List.getElem_of_mem hq'
  rcases Nat.lt_trichotomy i j with before | rfl | after
  · exact absurd hb' ((apart i j hi hj before).2 w b need hb)
  · rfl
  · exact absurd hb ((apart j i hj hi after).2 w b need hb')

/-! ### Branches in order -/

def below? (n : Nat) : Path α → Option Nat
  | s :: b :: rest => if s.origin = n then some b.origin else below? n (b :: rest)
  | _ => none

def branchesBelow (n : Nat) (paths : List (Path α)) : List Nat :=
  (paths.filterMap (below? n)).eraseDups

theorem exists_of_below? {p : Path α} {n m : Nat} (h : below? n p = some m) :
    ∃ x w b y, p = x ++ w :: b :: y ∧ w.origin = n ∧ b.origin = m := by
  induction p with
  | nil => simp [below?] at h
  | cons s rest ih =>
    cases rest with
    | nil => simp [below?] at h
    | cons b rest =>
      rw [below?] at h
      split at h
      · rename_i hs
        exact ⟨[], s, b, rest, rfl, hs, Option.some.inj h⟩
      · obtain ⟨x, w, b', y, hp, hw, hb⟩ := ih h
        exact ⟨s :: x, w, b', y, by simp [hp], hw, hb⟩

theorem IsLineage.below?_eq_some (h : IsLineage isWrapper paths) {x y : Path α} {w b : Step α}
    (hp : x ++ w :: b :: y ∈ paths) : below? w.origin (x ++ w :: b :: y) = some b.origin := by
  have others : ∀ s ∈ x, s.origin ≠ w.origin := by
    intro s hs same
    obtain ⟨z, z', rfl⟩ := List.append_of_mem hs
    have hz : z ++ s :: (z' ++ w :: b :: y) ∈ paths := by simpa using hp
    have equal := congrArg List.length (h.agree hz hp same).1
    simp at equal
  clear hp
  induction x with
  | nil => simp [below?]
  | cons s x ih =>
    have hs : s.origin ≠ w.origin := others s (by simp)
    have deeper := ih (fun s hs => others s (by simp [hs]))
    cases x with
    | nil => simp [below?, hs]
    | cons c x =>
      rw [List.cons_append, List.cons_append, below?, if_neg hs]
      exact deeper

theorem IsLineage.mem_branchesBelow (h : IsLineage isWrapper paths) {n m : Nat} :
    m ∈ branchesBelow n paths ↔
      ∃ x w b y, x ++ w :: b :: y ∈ paths ∧ w.origin = n ∧ b.origin = m := by
  simp only [branchesBelow, List.mem_eraseDups, List.mem_filterMap]
  constructor
  · rintro ⟨p, hp, found⟩
    obtain ⟨x, w, b, y, rfl, hw, hb⟩ := exists_of_below? found
    exact ⟨x, w, b, y, hp, hw, hb⟩
  · rintro ⟨x, w, b, y, hp, rfl, rfl⟩
    exact ⟨_, hp, h.below?_eq_some hp⟩

theorem IsLineage.pairwise_branchesBelow (h : IsLineage isWrapper paths) (n : Nat) :
    (branchesBelow n paths).Pairwise (· < ·) := by
  apply pairwise_lt_eraseDups
  rw [List.pairwise_filterMap]
  apply h.rising.imp_of_mem
  intro p q hp hq rises m hm m' hm'
  obtain ⟨x, w, b, y, rfl, hw, rfl⟩ := exists_of_below? hm
  obtain ⟨x', w', b', y', rfl, hw', rfl⟩ := exists_of_below? hm'
  obtain ⟨rfl, rfl⟩ := h.agree hp hq (hw.trans hw'.symm)
  exact rises (x ++ [w]) y y' b b' (by simp) (by simp)

/-- A wrapper on a wanted path keeps all its branches, in their order. -/
theorem IsLineage.branchesBelow_filter (h : IsLineage isWrapper paths) {w : Step α}
    (wrapper : isWrapper w.data = true) (live : ∃ p ∈ paths, wanted p = true ∧ w ∈ p) :
    branchesBelow w.origin (Path.filter isWrapper wanted paths) = branchesBelow w.origin paths := by
  have kept : IsLineage isWrapper (Path.filter isWrapper wanted paths) := h.filter
  apply (kept.pairwise_branchesBelow _).eq_of_mem_iff (h.pairwise_branchesBelow _)
  intro n
  rw [kept.mem_branchesBelow, h.mem_branchesBelow]
  constructor
  · rintro ⟨x, w', b, y, hq, hw, hb⟩
    obtain ⟨p, hp, z, rfl⟩ := exists_longer_of_mem hq
    exact ⟨x, w', b, y ++ z, by simpa using hp, hw, hb⟩
  · rintro ⟨x, w', b, y, hp, hw, rfl⟩
    obtain ⟨m, hm, hwanted, hwm⟩ := live
    obtain ⟨z, z', rfl⟩ := List.append_of_mem hwm
    obtain ⟨rfl, rfl⟩ := h.agree hp hm hw
    by_cases taken : ∃ p ∈ paths, wanted p = true ∧ b ∈ p
    · obtain ⟨p, hp', hwanted', hb⟩ := taken
      obtain ⟨u, u', rfl⟩ := List.append_of_mem hb
      have same : u = x ++ [w'] :=
        h.eq_of_append hp' hp rfl (show x ++ w' :: b :: y = (x ++ [w']) ++ b :: y by simp)
      have hmem : u ++ b :: u' ∈ Path.filter isWrapper wanted paths :=
        (sublist_keepOrStandIn paths).subset (List.mem_filter.2 ⟨hp', hwanted'⟩)
      exact ⟨x, w', b, u', by simpa [same] using hmem, rfl, rfl⟩
    · have need : InNeed isWrapper wanted paths w' b :=
        ⟨wrapper, ⟨_, hm, hwanted, hwm⟩, ⟨_, hp, x, y, by simp⟩,
          fun p hp' hwanted' hb => taken ⟨p, hp', hwanted', hb⟩⟩
      obtain ⟨q, hq, v, v', rfl⟩ := h.exists_standIn need
      exact ⟨v, w', b, v', by simpa using hq, rfl, rfl⟩

/-- What a filter makes of paths: of the `kept` ones, the wanted ones and one for each branch in
need. -/
structure IsFiltered (isWrapper : α → Bool) (wanted : Path α → Bool) (paths kept : List (Path α)) :
    Prop where
  /-- The wanted paths are all there, as they were and in order. -/
  all : (paths.filter wanted).Sublist kept
  nodup : kept.Nodup
  /-- Every other path stands in for a branch in need, in place of a path that is not wanted. -/
  others : ∀ q ∈ kept, q ∈ paths.filter wanted ∨
    ∃ p ∈ paths, wanted p = false ∧
      ∃ w b, InNeed isWrapper wanted paths w b ∧ StandsIn isWrapper w b p q
  /-- Each branch in need is stood in for once. -/
  once : ∀ w b, InNeed isWrapper wanted paths w b →
    ∃ q ∈ kept, [w, b] <:+: q ∧ ∀ q' ∈ kept, [w, b] <:+: q' → q' = q
  /-- A wrapper on a wanted path has all its branches, in order of first occurrence. -/
  branches : ∀ w, isWrapper w.data = true → (∃ p ∈ paths, wanted p = true ∧ w ∈ p) →
    branchesBelow w.origin kept = branchesBelow w.origin paths
  ended : ∀ q ∈ kept, ∀ s, q.getLast? = some s → isWrapper s.data = false

theorem IsLineage.isFiltered (h : IsLineage isWrapper paths) :
    IsFiltered isWrapper wanted paths (Path.filter isWrapper wanted paths) where
  all := sublist_keepOrStandIn paths
  nodup := h.filter.nodup
  others q hq := by
    rcases mem_keepOrStandIn hq with ⟨hq, hwanted⟩ | ⟨p, hp, unwanted, n, found, -⟩
    · exact .inl (List.mem_filter.2 ⟨hq, hwanted⟩)
    · obtain ⟨w, b, need, -, stands⟩ := (h.standIn?_iff hp).1 found
      exact .inr ⟨p, hp, unwanted, w, b, need, stands⟩
  once w b need := by
    obtain ⟨q, hq, hb⟩ := h.exists_standIn need
    refine ⟨q, hq, hb, ?_⟩
    intro q' hq' hb'
    exact h.eq_of_need need hq' hq (hb'.subset (by simp)) (hb.subset (by simp))
  branches _ wrapper live := h.branchesBelow_filter wrapper live
  ended := h.filter.ended

end Lineage

end Path

namespace Outline

/-- Taken from a forest, and filtered any number of times. -/
inductive IsSieved : Outline α κ → Prop
  | taken {r : Rules α κ} {t : Forest α} {o : Outline α κ} (h : ofForest r t = .ok o) : IsSieved o
  | filter {o : Outline α κ} (h : IsSieved o) (q : Query α) : IsSieved (o.filter q)

theorem IsSieved.isLineage {o : Outline α κ} (h : o.IsSieved) :
    Path.IsLineage o.rules.isWrapper o.paths := by
  induction h with
  | taken h =>
    obtain ⟨faultless, rfl⟩ := ofForest_eq_ok.1 h
    exact Forest.isLineage_paths faultless
  | filter _ q ih => exact ih.filter

/-- A filter keeps exactly the paths that answer the query and one path for each branch in need,
and its paths are taken as they are. -/
theorem IsSieved.filter_paths {o : Outline α κ} (h : o.IsSieved) (q : Query α) :
    Path.IsFiltered o.rules.isWrapper q.hits o.paths (o.filter q).paths ∧
      Outline.ofPaths o.rules (o.filter q).paths = .ok (o.filter q) :=
  ⟨h.isLineage.isFiltered, (h.filter q).isLineage.ofPaths⟩

/-- In the hall the way out by night is kept, and the other branch is stood in for. -/
theorem IsSieved.filter_paths_hallWithDoor :
    ∃ o : Outline Tag Category, o.IsSieved ∧
      (let q : Query Tag := .exactly (.exit "out" "yard")
      (Path.IsFiltered o.rules.isWrapper q.hits o.paths (o.filter q).paths ∧
        Outline.ofPaths o.rules (o.filter q).paths = .ok (o.filter q)) ∧
      (o.filter q).paths.map (List.map Step.origin) = [[0, 4, 5, 6], [0, 4, 7]]) := by
  have sieved : IsSieved (Outline.filter ⟨worldRules, Forest.paths hallWithDoor⟩
      (.exactly (.room "hall"))) :=
    .filter (.taken (ofForest_eq_ok.2 ⟨by decide, rfl⟩)) _
  exact ⟨_, sieved, sieved.filter_paths _, by decide⟩

end Outline

end WorldMarkup
