import WorldMarkup.Proofs.Form.Slots

/-!
What is shown of content that a field does not see. Main statement: paths that hold nothing for the
field show nothing in it, but for the branch that they alone stand in.
-/

set_option autoImplicit false
set_option relaxedAutoImplicit false

namespace WorldMarkup.Address

open Ownership (ownedPath? slot?)
open SplitChain

variable {a : Address} {docs : List (Path Tag)}

theorem mem_reach_view (hdocs : AreContent docs) {w : Nat} :
    (w, some a.field) ∈ reach a.kind (a.view docs) ↔
      ∃ p ∈ docs, a.leadsPath .outside p = true ∧
        ∃ s ∈ p, s.data = .conditional ∧ s.origin = w := by
  rw [mem_reach_field]
  constructor
  · rintro ⟨o, ho, hslot, s, hs, hc, hw⟩
    obtain ⟨p, hp, hown⟩ := mem_view.1 ho
    exact ⟨p, hp, (leadsPath_iff_slot? (hdocs.runs p hp)).2 ⟨o, hown, hslot⟩, s,
      mem_of_mem_ownedPath? hown hs (by rw [hc]; rfl), hc, hw⟩
  · rintro ⟨p, hp, hl, s, hs, hc, hw⟩
    obtain ⟨o, hown, hslot⟩ := (leadsPath_iff_slot? (hdocs.runs p hp)).1 hl
    have hmem : s ∈ o.kept := by
      rw [kept_of_leadsPath (hdocs.runs p hp) hl hown]
      exact List.mem_filter.2 ⟨hs, by rw [hc]; rfl⟩
    exact ⟨o, mem_view.2 ⟨p, hp, hown⟩, hslot, s, (List.mem_filter.1 hmem).1, hc, hw⟩

theorem mem_present_view (hdocs : AreContent docs) {b : Nat} :
    (b, some a.field) ∈ present a.kind (a.view docs) ↔
      ∃ p ∈ docs, a.leadsPath .outside p = true ∧
        ∃ s ∈ Path.branches [] p, s.branch = b := by
  rw [mem_present_field]
  constructor
  · rintro ⟨o, ho, hslot, s, hs, hb⟩
    obtain ⟨p, hp, hown⟩ := mem_view.1 ho
    have hl := (leadsPath_iff_slot? (hdocs.runs p hp)).2 ⟨o, hown, hslot⟩
    refine ⟨p, hp, hl, s.kept, ?_, hb⟩
    rw [← branches_of_leadsPath (hdocs.runs p hp) hl hown]
    exact List.mem_map_of_mem hs
  · rintro ⟨p, hp, hl, s, hs, hb⟩
    obtain ⟨o, hown, hslot⟩ := (leadsPath_iff_slot? (hdocs.runs p hp)).1 hl
    rw [← branches_of_leadsPath (hdocs.runs p hp) hl hown] at hs
    obtain ⟨s', hs', rfl⟩ := List.mem_map.1 hs
    exact ⟨o, mem_view.2 ⟨p, hp, hown⟩, hslot, s', hs', hb⟩

theorem lacks_iff (s : Site) :
    a.lacks (a.view docs) s = true ↔ (s.wrapper, some a.field) ∈ reach a.kind (a.view docs) ∧
      (s.branch, some a.field) ∉ present a.kind (a.view docs) := by
  simp [lacks]

theorem exists_of_mem_branches {above p : Path Tag} {s : Site} (h : s ∈ Path.branches above p) :
    ∃ w ∈ p, ∃ b ∈ p, w.data = .conditional ∧ s.wrapper = w.origin ∧ s.branch = b.origin := by
  obtain ⟨s', hs', rfl⟩ := List.mem_map.1 h
  obtain ⟨x, w, b, y, rfl, hw, h1, h2, -⟩ := exists_of_mem_sitesFrom hs'
  exact ⟨w, by simp, b, by simp, hw, h1, h2⟩

/-! ### Silence and stand-ins -/

theorem shownOf_eq_nil {seen : List Nat} {o : Path Tag} (hslot : slot? a.kind o ≠ some a.field)
    (h : ∀ s ∈ Path.branches [] o, s.branch ∈ seen ∨ a.lacks (a.view docs) s = false) :
    a.shownOf (a.view docs) seen o = [] := by
  rw [shownOf, if_neg hslot, List.map_eq_nil_iff]
  refine List.filter_eq_nil_iff.2 (fun s hs => ?_)
  obtain ⟨hsite, hseen⟩ := mem_of_mem_firsts hs
  rcases h s.kept (List.mem_map_of_mem hsite) with h | h
  · exact absurd h hseen
  · intro hl
    have : a.lacks (a.view docs) s.kept = true := hl
    rw [this] at h
    exact absurd h (by simp)

/-- Paths that lead elsewhere show nothing when all branches on them have been seen, or the field
does not lack them. -/
theorem shown_eq_nil (hdocs : AreContent docs) {seen : List Nat} {ps : List (Path Tag)}
    (hps : ∀ p ∈ ps, p ∈ docs) (hl : ∀ p ∈ ps, a.leadsPath .outside p = false)
    (h : ∀ p ∈ ps, ∀ o, ownedPath? a.kind a.key p = some o →
      ∀ s ∈ Path.branches [] o, s.branch ∈ seen ∨ a.lacks (a.view docs) s = false) :
    a.shown (a.view docs) seen (a.view ps) = [] := by
  induction ps generalizing seen with
  | nil => rfl
  | cons p ps ih =>
    have hlater (seen' : List Nat) (hsub : ∀ k ∈ seen, k ∈ seen') :
        a.shown (a.view docs) seen' (a.view ps) = [] :=
      ih (fun q hq => hps q (by simp [hq])) (fun q hq => hl q (by simp [hq]))
        (fun q hq o ho s hs => (h q (by simp [hq]) o ho s hs).imp (hsub _) id)
    rcases ho : ownedPath? a.kind a.key p with _ | o
    · have hview : a.view (p :: ps) = a.view ps := by simp [view, ho]
      rw [hview]
      exact hlater seen (fun _ hk => hk)
    · have hview : a.view (p :: ps) = o :: a.view ps := by simp [view, ho]
      have hslot : slot? a.kind o ≠ some a.field := by
        intro hslot
        have := (leadsPath_iff_slot? (hdocs.runs p (hps p (by simp)))).2 ⟨o, ho, hslot⟩
        rw [hl p (by simp)] at this
        exact absurd this (by simp)
      rw [hview, shown, hlater _ (fun k hk => by simp [hk]), List.append_nil]
      exact shownOf_eq_nil hslot (h p (by simp) o ho)

theorem eq_singleton_of_nodup {β γ : Type} {key : β → γ} {l : List β} (h : (l.map key).Nodup)
    {x : β} (hx : x ∈ l) (hkey : ∀ y ∈ l, key y = key x) : l = [x] := by
  match l with
  | [y] => rw [List.mem_singleton.1 hx]
  | y :: z :: l =>
    have hy := hkey y (by simp)
    have hz := hkey z (by simp)
    simp [hy, hz] at h

theorem shownOf_eq_singleton {seen : List Nat} {o : Path Tag} {X : Site}
    (hslot : slot? a.kind o ≠ some a.field) (hX : X ∈ Path.branches [] o)
    (hseen : X.branch ∉ seen) (hlacks : a.lacks (a.view docs) X = true)
    (honly : ∀ s ∈ Path.branches [] o, a.lacks (a.view docs) s = true → s = X)
    (hown : ∀ s ∈ Path.branches [] o, s.branch = X.branch → s = X) :
    a.shownOf (a.view docs) seen o = [X.path] := by
  rw [shownOf, if_neg hslot]
  obtain ⟨s, hs, hsX⟩ := List.mem_map.1 hX
  have hsb : s.branch ∉ seen := by
    rw [← hsX] at hseen
    exact hseen
  obtain ⟨y, hy, hyb⟩ := exists_mem_firsts hs hsb
  have hkept (z : Site) (hz : z ∈ (firsts Site.branch seen (sites o)).filter
      (a.lacks (a.view docs))) : z.kept = X := by
    obtain ⟨hz, hzl⟩ := List.mem_filter.1 hz
    exact honly z.kept (List.mem_map_of_mem (mem_of_mem_firsts hz).1) hzl
  have hyX : y.kept = X := by
    refine hown y.kept (List.mem_map_of_mem (mem_of_mem_firsts hy).1) ?_
    rw [← hsX]
    exact hyb
  have hmem : y ∈ (firsts Site.branch seen (sites o)).filter (a.lacks (a.view docs)) := by
    refine List.mem_filter.2 ⟨hy, ?_⟩
    rw [← hyX] at hlacks
    exact hlacks
  have hbranch (z : Site) : z.kept.branch = z.branch := rfl
  have hone := eq_singleton_of_nodup
    ((nodup_firsts seen (sites o)).sublist (List.filter_sublist.map Site.branch)) hmem
    (fun z hz => by rw [← hbranch z, ← hbranch y, hkept z hz, hyX])
  rw [hone, ← hyX]
  rfl

theorem slot?_ne_of_not_leadsPath (hdocs : AreContent docs) {p o : Path Tag} (hp : p ∈ docs)
    (hl : a.leadsPath .outside p = false) (ho : ownedPath? a.kind a.key p = some o) :
    slot? a.kind o ≠ some a.field := by
  intro hslot
  have := (leadsPath_iff_slot? (hdocs.runs p hp)).2 ⟨o, ho, hslot⟩
  rw [hl] at this
  exact absurd this (by simp)

/-- A branch that the field lacks, on paths that lead elsewhere; it lacks no other branch on
them. -/
structure LacksOnly (a : Address) (docs : List (Path Tag)) (above : Path Tag) (w b : Step Tag)
    (rests : List (Path Tag)) : Prop where
  trunk : above.IsTrunk
  choice : w.data = .conditional
  branch : b.data.category = .branch
  inside : ∀ q ∈ rests, above ++ w :: b :: q ∈ docs
  elsewhere : ∀ q ∈ rests, a.leadsPath .outside (above ++ w :: b :: q) = false
  active : ∀ s ∈ Path.branches [] above, a.lacks (a.view docs) s = false ∧ s.branch ≠ b.origin
  lacking : a.lacks (a.view docs) ⟨w.origin, b.origin, Path.kept (above ++ [w, b])⟩ = true
  deep : ∀ q ∈ rests, ∀ s ∈ Path.branches (above ++ [w, b]) q,
    a.lacks (a.view docs) s = false ∧ s.branch ≠ b.origin

section LacksOnly

variable {above q o : Path Tag} {w b : Step Tag} {rests : List (Path Tag)} {place : Place}
  {seen : List Nat}

theorem LacksOnly.tail (h : LacksOnly a docs above w b (q :: rests)) :
    LacksOnly a docs above w b rests where
  trunk := h.trunk
  choice := h.choice
  branch := h.branch
  inside x hx := h.inside x (List.mem_cons_of_mem _ hx)
  elsewhere x hx := h.elsewhere x (List.mem_cons_of_mem _ hx)
  active := h.active
  lacking := h.lacking
  deep x hx := h.deep x (List.mem_cons_of_mem _ hx)

theorem LacksOnly.seen_cases (h : LacksOnly a docs above w b rests) (hdocs : AreContent docs)
    (hq : q ∈ rests) (ho : ownedPath? a.kind a.key (above ++ w :: b :: q) = some o) {s : Site}
    (hs : s ∈ Path.branches [] o) :
    s = ⟨w.origin, b.origin, Path.kept (above ++ [w, b])⟩ ∨
      a.lacks (a.view docs) s = false ∧ s.branch ≠ b.origin := by
  have hs := (branches_ownedPath? (hdocs.runs _ (h.inside q hq)) ho).subset hs
  rw [Path.branches_trunk h.trunk, Path.branches_choice h.choice h.branch] at hs
  rcases List.mem_append.1 hs with hs | hs
  · exact .inr (h.active s hs)
  · rcases List.mem_cons.1 hs with rfl | hs
    · exact .inl rfl
    · exact .inr (h.deep q hq s hs)

theorem LacksOnly.slot?_ne (h : LacksOnly a docs above w b rests) (hdocs : AreContent docs)
    (hq : q ∈ rests) (ho : ownedPath? a.kind a.key (above ++ w :: b :: q) = some o) :
    slot? a.kind o ≠ some a.field :=
  slot?_ne_of_not_leadsPath hdocs (h.inside q hq) (h.elsewhere q hq) ho

theorem LacksOnly.shownOf_eq (h : LacksOnly a docs above w b rests) (hdocs : AreContent docs)
    (hq : q ∈ rests) (ho : ownedPath? a.kind a.key (above ++ w :: b :: q) = some o)
    (shows : ⟨w.origin, b.origin, Path.kept (above ++ [w, b])⟩ ∈ Path.branches [] o)
    (unseen : b.origin ∉ seen) :
    a.shownOf (a.view docs) seen o = [Path.kept (above ++ [w, b])] := by
  refine shownOf_eq_singleton (h.slot?_ne hdocs hq ho) shows unseen h.lacking ?_ ?_
  · intro s hs lacks
    rcases h.seen_cases hdocs hq ho hs with own | ⟨has, -⟩
    · exact own
    · simp [lacks] at has
  · intro s hs same
    rcases h.seen_cases hdocs hq ho hs with own | ⟨-, other⟩
    · exact own
    · exact absurd same other

theorem LacksOnly.shown_eq_nil_of_seen (h : LacksOnly a docs above w b rests)
    (hdocs : AreContent docs) (seen_branch : b.origin ∈ seen) :
    a.shown (a.view docs) seen (a.view (rests.map (fun q => above ++ w :: b :: q))) = [] := by
  refine shown_eq_nil hdocs ?_ ?_ ?_
  · intro p hp
    obtain ⟨q, hq, rfl⟩ := List.mem_map.1 hp
    exact h.inside q hq
  · intro p hp
    obtain ⟨q, hq, rfl⟩ := List.mem_map.1 hp
    exact h.elsewhere q hq
  · intro p hp o ho s hs
    obtain ⟨q, hq, rfl⟩ := List.mem_map.1 hp
    rcases h.seen_cases hdocs hq ho hs with rfl | ⟨has, -⟩
    · exact .inl seen_branch
    · exact .inr has

theorem not_touchesPath_of_unseen (trunk : above.IsTrunk)
    (hplace : a.after? .outside above = some place)
    (unseen : ownedPath? a.kind a.key (above ++ w :: b :: q) = none) :
    a.touchesPath (place != .outside) q = false := by
  have strange := ownedPath?_eq_none.1 unseen
  have outside : place = .outside := by
    rcases after?_trunk (a := a) trunk (by simp : Place.outside ≠ .within) with
      ⟨-, after⟩ | ⟨_, x, _, rfl, -, -, after⟩
    · exact Option.some.inj (hplace.symm.trans after)
    · rw [strange x (by simp)] at after
      exact Option.some.inj (hplace.symm.trans after)
  have none : Ownership.splitAtLast? (fun s : Step Tag => a.isTarget s.data) q = none :=
    Path.splitAtLast?_eq_none.2 (fun s hs => strange s (by simp [hs]))
  rw [touchesPath_eq, none, outside]
  rfl

/-- Of the paths below a branch that the field lacks one stands in for the branch, if the
component has content on any of them. -/
theorem LacksOnly.shown_eq (h : LacksOnly a docs above w b rests) (hdocs : AreContent docs)
    (hplace : a.after? .outside above = some place) (unseen : b.origin ∉ seen) :
    a.shown (a.view docs) seen (a.view (rests.map (fun q => above ++ w :: b :: q))) =
      if rests.any (a.touchesPath (place != .outside)) then [Path.kept (above ++ [w, b])]
      else [] := by
  induction rests generalizing seen with
  | nil => rfl
  | cons q rests ih =>
    have own : q ∈ q :: rests := List.mem_cons_self
    rcases ho : ownedPath? a.kind a.key (above ++ w :: b :: q) with _ | o
    · simp only [List.map_cons, view, List.filterMap_cons, ho, List.any_cons,
        not_touchesPath_of_unseen h.trunk hplace ho, Bool.false_or]
      exact ih h.tail unseen
    · have hview : a.view ((q :: rests).map (fun q => above ++ w :: b :: q)) =
          o :: a.view (rests.map (fun q => above ++ w :: b :: q)) := by simp [view, ho]
      rw [hview, shown]
      by_cases touches : a.touchesPath (place != .outside) q = true
      · obtain ⟨more, branches⟩ := branches_of_touchesPath h.trunk h.choice h.branch hplace
          (hdocs.runs _ (h.inside q own)) ho touches
        have shows : ⟨w.origin, b.origin, Path.kept (above ++ [w, b])⟩ ∈ Path.branches [] o := by
          rw [branches]
          simp
        have known : b.origin ∈ ((sites o).map Site.branch).reverse ++ seen := by
          obtain ⟨s, hs, same⟩ := List.mem_map.1 shows
          have number : s.branch = b.origin := congrArg Site.branch same
          exact List.mem_append_left _ (List.mem_reverse.2 (List.mem_map.2 ⟨s, hs, number⟩))
        rw [h.shownOf_eq hdocs own ho shows unseen, h.tail.shown_eq_nil_of_seen hdocs known]
        simp [touches]
      · have touches : a.touchesPath (place != .outside) q = false := by simpa using touches
        have branches := branches_of_not_touchesPath h.trunk h.choice h.branch hplace ho touches
        have silent : a.shownOf (a.view docs) seen o = [] :=
          shownOf_eq_nil (h.slot?_ne hdocs own ho)
            (fun s hs => .inr (h.active s (branches.subset hs)).1)
        have unseen' : b.origin ∉ ((sites o).map Site.branch).reverse ++ seen := by
          simp only [List.mem_append, List.mem_reverse, List.mem_map, not_or]
          refine ⟨?_, unseen⟩
          rintro ⟨s, hs, same⟩
          exact (h.active s.kept (branches.subset (List.mem_map_of_mem hs))).2 same
        rw [silent, ih h.tail unseen']
        simp [touches]

end LacksOnly

end WorldMarkup.Address
