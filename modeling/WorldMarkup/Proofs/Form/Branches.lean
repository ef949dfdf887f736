import WorldMarkup.Proofs.Form.Ownership

/-!
The branches on a content path and on what a component sees of it. Main statements: the branches
seen are the first of those on the path, all of them when the path leads to the field, and a
branch above is seen exactly when the path shows more of the component than its bare presence.
-/

set_option autoImplicit false
set_option relaxedAutoImplicit false

namespace WorldMarkup

open Ownership (splitAtLast? untilNested ownedPath?)
open SplitChain (Site sites sitesFrom)

def SplitChain.Site.kept (s : Site) : Site := { s with path := s.path.kept }

namespace Path

def branches (above p : Path Tag) : List Site := (sitesFrom above p).map Site.kept

theorem branches_nil (above : Path Tag) : branches above [] = [] := by
  simp [branches, sitesFrom]

theorem branches_cons {above rest : Path Tag} {s : Step Tag} (hs : s.data ≠ .conditional) :
    branches above (s :: rest) = branches (above ++ [s]) rest := by
  cases rest with
  | nil => simp [branches, sitesFrom]
  | cons b rest => simp [branches, sitesFrom, hs]

theorem branches_choice {above rest : Path Tag} {w b : Step Tag} (hw : w.data = .conditional)
    (hb : b.data.category = .branch) :
    branches above (w :: b :: rest) =
      ⟨w.origin, b.origin, Path.kept (above ++ [w, b])⟩ :: branches (above ++ [w, b]) rest := by
  have hnot : b.data ≠ .conditional := by
    intro h
    simp [h, Tag.category] at hb
  have hrest : branches (above ++ [w]) (b :: rest) = branches (above ++ [w] ++ [b]) rest :=
    branches_cons hnot
  simp only [List.append_assoc, List.cons_append, List.nil_append] at hrest
  rw [← hrest]
  simp [branches, sitesFrom, hw, Site.kept]

theorem branches_congr {above above' : Path Tag} (h : above.kept = above'.kept) (p : Path Tag) :
    branches above p = branches above' p := by
  induction p generalizing above above' with
  | nil => simp [branches_nil]
  | cons s rest ih =>
    have hs : Path.kept (above ++ [s]) = Path.kept (above' ++ [s]) := by
      rw [Address.kept_append, Address.kept_append, h]
    have hmore := ih hs
    cases rest with
    | nil => simp [branches, sitesFrom]
    | cons b rest =>
      have hsb : Path.kept (above ++ [s, b]) = Path.kept (above' ++ [s, b]) := by
        rw [Address.kept_append, Address.kept_append, h]
      simp only [branches, sitesFrom, List.map_append] at hmore ⊢
      rw [hmore]
      split
      · simp only [List.map_cons, List.map_nil, Site.kept, hsb]
      · rfl

theorem branches_trunk {X : Path Tag} (hX : X.IsTrunk) (above q : Path Tag) :
    branches above (X ++ q) = branches above X ++ branches (above ++ X) q := by
  induction hX generalizing above with
  | nil => simp [branches_nil]
  | @entity s rest hs _ ih =>
    have hnot : s.data ≠ .conditional := by
      intro h
      simp [h, Tag.entity?] at hs
    rw [List.cons_append, branches_cons hnot, branches_cons hnot, ih]
    simp
  | choice hw hb _ ih =>
    rw [List.cons_append, List.cons_append, branches_choice hw hb, branches_choice hw hb, ih]
    simp

theorem branches_filter_chain {X : Path Tag} (hX : X.IsTrunk) (above q : Path Tag) :
    branches above (List.filter (fun s => s.data.isChain) X ++ q) = branches above (X ++ q) := by
  induction hX generalizing above with
  | nil => rfl
  | @entity s rest hs _ ih =>
    have hnot : s.data ≠ .conditional := by
      intro h
      simp [h, Tag.entity?] at hs
    have hchain : s.data.isChain = false := by
      cases hd : s.data <;> simp_all [Tag.entity?, Tag.isChain]
    have hkept : Path.kept (above ++ [s]) = Path.kept above := by
      rw [Address.kept_append]
      have : s.data.isKept = false := by
        cases hd : s.data <;> simp_all [Tag.entity?, Tag.isKept, Tag.isChain, Tag.category]
      simp [Path.kept, this]
    rw [List.cons_append, branches_cons hnot, branches_congr hkept, ← ih]
    simp [hchain]
  | @choice w b rest hw hb _ ih =>
    have hwc : w.data.isChain = true := by rw [hw]; rfl
    have hbc := Address.isChain_of_branch hb
    simp only [List.filter_cons, hwc, hbc, if_true, List.cons_append]
    rw [branches_choice hw hb, branches_choice hw hb, ih]

theorem branches_untilNested {c : Option EntityKind} {q : Path Tag} (h : Runs c q)
    (above : Path Tag) : branches above (untilNested q) <+: branches above q := by
  induction h generalizing above with
  | stop => simp [untilNested]
  | @entity c s rest e hs _ _ =>
    have hcut : untilNested (s :: rest) = [⟨s.data.withoutSource, {}, s.origin⟩] := by
      simp [untilNested, hs, Tag.entity?]
    rw [hcut]
    simp [branches, sitesFrom]
  | @choice c w b rest hw hb _ ih =>
    have hwe : w.data.entity? = none := by rw [hw]; rfl
    have hbe : b.data.entity? = none := by
      cases hd : b.data <;> simp_all [Tag.category, Tag.entity?]
    have hcut : untilNested (w :: b :: rest) = w :: b :: untilNested rest := by
      simp [untilNested, hwe, hbe]
    rw [hcut, branches_choice hw hb, branches_choice hw hb]
    exact (List.prefix_cons_inj _).2 (ih _)
  | @field k s rest g hs _ inner =>
    have hcut : untilNested (s :: rest) = s :: rest := by
      refine Address.untilNested_eq_self (fun x hx => ?_)
      rcases List.mem_cons.1 hx with rfl | hx
      · simp [hs, Tag.entity?]
      · exact Address.entity?_of_isKept (inner x hx)
    exact ⟨[], by rw [hcut, List.append_nil]⟩
  | @item k s hs =>
    have he : s.data.entity? = none := by
      cases hd : s.data <;> simp_all [Tag.category, Tag.entity?]
    have hcut : untilNested [s] = [s] := by simp [untilNested, he]
    exact ⟨[], by rw [hcut, List.append_nil]⟩

end Path

namespace Address

variable {a : Address}

theorem branches_target {above below : Path Tag} {t : Step Tag} (hA : above.IsTrunk)
    (ht : a.isTarget t.data = true) :
    Path.branches [] (above ++ t :: below) =
      Path.branches [] above ++ Path.branches (above ++ [t]) below := by
  obtain ⟨e, he, -, -⟩ := exists_entity_of_isTarget ht
  have hnot : t.data ≠ .conditional := by simp [he]
  rw [Path.branches_trunk hA, Path.branches_cons hnot]
  rfl

theorem branches_seen {above below : Path Tag} {t : Step Tag} (hA : above.IsTrunk)
    (ht : a.isTarget t.data = true) :
    Path.branches [] (List.filter (fun s => s.data.isChain) above ++ t :: below) =
      Path.branches [] above ++ Path.branches (above ++ [t]) below := by
  rw [Path.branches_filter_chain hA, branches_target hA ht]

theorem branches_ownedPath? {p o : Path Tag} (h : Path.Runs none p)
    (ho : ownedPath? a.kind a.key p = some o) :
    Path.branches [] o <+: Path.branches [] p := by
  obtain ⟨above, t, below, rfl, ht, hb, hcase⟩ := ownedPath?_cases ho
  obtain ⟨e, he, -, -⟩ := exists_entity_of_isTarget ht
  obtain ⟨hA, hB⟩ := h.split he
  rcases hcase with ⟨rfl, rfl⟩ | ⟨-, rfl⟩
  · have hbare : Path.branches [] [t] = [] := by simp [Path.branches, sitesFrom]
    rw [hbare]
    exact List.nil_prefix
  · rw [branches_seen hA ht, branches_target hA ht]
    exact (List.prefix_append_right_inj _).2 (Path.branches_untilNested hB _)

theorem branches_of_leadsPath {p o : Path Tag} (h : Path.Runs none p)
    (hl : a.leadsPath .outside p = true) (ho : ownedPath? a.kind a.key p = some o) :
    Path.branches [] o = Path.branches [] p := by
  obtain ⟨above, t, below, rfl, ht, hA, -, -, hown⟩ := exists_of_leadsPath h hl
  rw [hown] at ho
  obtain rfl := Option.some.inj ho
  rw [branches_seen hA ht, branches_target hA ht]

theorem touchesPath_eq (entered : Bool) (p : Path Tag) :
    a.touchesPath entered p =
      match splitAtLast? (fun s => a.isTarget s.data) p with
      | some (_, _, below) => !below.isEmpty
      | none => entered := by
  induction p generalizing entered with
  | nil => rfl
  | cons s p ih =>
    rcases hp : splitAtLast? (fun s : Step Tag => a.isTarget s.data) p with _ | ⟨x, t, y⟩
    · by_cases hs : a.isTarget s.data = true
      · have hmore := ih true
        rw [hp] at hmore
        simp [touchesPath, splitAtLast?, hp, hs, hmore]
      · have hmore := ih entered
        rw [hp] at hmore
        simp [touchesPath, splitAtLast?, hp, hs, hmore]
    · obtain ⟨rfl, -, -⟩ := Path.exists_of_splitAtLast? hp
      have hmore (e : Bool) := ih e
      simp only [hp] at hmore
      by_cases hs : a.isTarget s.data = true <;>
        simp [touchesPath, splitAtLast?, hp, hs, hmore]

theorem untilNested_append {p : Path Tag} (h : ∀ s ∈ p, s.data.entity? = none) (q : Path Tag) :
    untilNested (p ++ q) = p ++ untilNested q := by
  induction p with
  | nil => rfl
  | cons s p ih =>
    have hs : s.data.entity? = none := h s (by simp)
    simp [untilNested, hs, ih (fun x hx => h x (by simp [hx]))]

theorem untilNested_append_entity {p : Path Tag} {x : Step Tag} (hx : x.data.entity?.isSome = true)
    (q : Path Tag) : untilNested (p ++ x :: q) = untilNested (p ++ [x]) := by
  induction p with
  | nil => simp [untilNested, hx]
  | cons s p ih =>
    simp only [List.cons_append, untilNested, ih]

theorem isTrunk_right {p q : Path Tag} {x : Step Tag} (hx : x.data.entity?.isSome = true)
    (h : Path.IsTrunk (p ++ x :: q)) : Path.IsTrunk p ∧ Path.IsTrunk q := by
  generalize hr : p ++ x :: q = r at h
  induction h generalizing p with
  | nil => simp at hr
  | @entity s rest hs more ih =>
    rcases p with _ | ⟨y, p⟩
    · simp only [List.nil_append, List.cons.injEq] at hr
      obtain ⟨rfl, rfl⟩ := hr
      exact ⟨.nil, more⟩
    · simp only [List.cons_append, List.cons.injEq] at hr
      obtain ⟨rfl, rfl⟩ := hr
      exact ⟨.entity hs (ih rfl).1, (ih rfl).2⟩
  | @choice w b rest hw hb _ ih =>
    rcases p with _ | ⟨y, _ | ⟨z, p⟩⟩
    · simp only [List.nil_append, List.cons.injEq] at hr
      obtain ⟨rfl, rfl⟩ := hr
      simp [hw, Tag.entity?] at hx
    · simp only [List.cons_append, List.nil_append, List.cons.injEq] at hr
      obtain ⟨rfl, rfl, rfl⟩ := hr
      cases hd : x.data <;> simp_all [Tag.category, Tag.entity?]
    · simp only [List.cons_append, List.cons.injEq] at hr
      obtain ⟨rfl, rfl, rfl⟩ := hr
      exact ⟨.choice hw hb (ih rfl).1, (ih rfl).2⟩

section Branch

variable {above rest o : Path Tag} {w b : Step Tag} {place : Place}

theorem entity?_of_choice (hw : w.data = .conditional) (hb : b.data.category = .branch) :
    w.data.entity? = none ∧ b.data.entity? = none := by
  refine ⟨by rw [hw]; rfl, ?_⟩
  cases hd : b.data <;> simp_all [Tag.category, Tag.entity?]

theorem branches_of_entered {front back : Path Tag} {z : Step Tag}
    (trunk : Path.IsTrunk (front ++ z :: back)) (hw : w.data = .conditional)
    (hb : b.data.category = .branch) (target : a.isTarget z.data = true)
    (last : ∀ s ∈ back, s.data.entity? = none) (others : ∀ s ∈ rest, a.isTarget s.data = false)
    (ho : ownedPath? a.kind a.key (front ++ z :: back ++ w :: b :: rest) = some o) :
    ∃ more, Path.branches [] o = Path.branches [] (front ++ z :: back) ++
      ⟨w.origin, b.origin, Path.kept (front ++ z :: back ++ [w, b])⟩ :: more := by
  obtain ⟨e, entity, -, -⟩ := exists_entity_of_isTarget target
  obtain ⟨plain, plain'⟩ := entity?_of_choice hw hb
  obtain ⟨trunk₁, trunk₂⟩ := isTrunk_right (by simp [entity, Tag.entity?]) trunk
  have later : ∀ s ∈ back ++ w :: b :: rest, a.isTarget s.data = false := by
    intro s hs
    simp only [List.mem_append, List.mem_cons] at hs
    rcases hs with hs | rfl | rfl | hs
    · exact isTarget_eq_false (last s hs)
    · exact isTarget_eq_false plain
    · exact isTarget_eq_false plain'
    · exact others s hs
  have path : front ++ z :: back ++ w :: b :: rest = front ++ z :: (back ++ w :: b :: rest) := by
    simp
  rw [path, ownedPath?_append target later (by simp)] at ho
  obtain rfl := Option.some.inj ho
  have cut : untilNested (back ++ w :: b :: rest) = back ++ w :: b :: untilNested rest := by
    rw [untilNested_append last]
    simp [untilNested, plain, plain']
  rw [cut, branches_seen trunk₁ target, branches_target trunk₁ target, Path.branches_trunk trunk₂,
    Path.branches_choice hw hb]
  refine ⟨Path.branches (front ++ [z] ++ back ++ [w, b]) (untilNested rest), ?_⟩
  simp only [List.append_assoc, List.cons_append, List.nil_append]

theorem branches_of_target_below {x y : Path Tag} {t : Step Tag} (hA : above.IsTrunk)
    (hw : w.data = .conditional) (hb : b.data.category = .branch)
    (h : Path.Runs none (above ++ w :: b :: (x ++ t :: y))) (target : a.isTarget t.data = true)
    (others : ∀ s ∈ y, a.isTarget s.data = false) (filled : y ≠ [])
    (ho : ownedPath? a.kind a.key (above ++ w :: b :: (x ++ t :: y)) = some o) :
    ∃ more, Path.branches [] o = Path.branches [] above ++
      ⟨w.origin, b.origin, Path.kept (above ++ [w, b])⟩ :: more := by
  have path : above ++ w :: b :: (x ++ t :: y) = (above ++ w :: b :: x) ++ t :: y := by simp
  obtain ⟨e, entity, -, -⟩ := exists_entity_of_isTarget target
  rw [path] at h ho
  obtain ⟨trunk, -⟩ := h.split entity
  rw [ownedPath?_append target others filled] at ho
  obtain rfl := Option.some.inj ho
  rw [branches_seen trunk target, Path.branches_trunk hA, Path.branches_choice hw hb]
  refine ⟨Path.branches (above ++ [w, b]) x ++
    Path.branches (above ++ w :: b :: x ++ [t]) (untilNested y), ?_⟩
  simp only [List.append_assoc, List.cons_append, List.nil_append]

theorem branches_of_touchesPath (hA : above.IsTrunk) (hw : w.data = .conditional)
    (hb : b.data.category = .branch) (hplace : a.after? .outside above = some place)
    (h : Path.Runs none (above ++ w :: b :: rest))
    (ho : ownedPath? a.kind a.key (above ++ w :: b :: rest) = some o)
    (ht : a.touchesPath (place != .outside) rest = true) :
    ∃ more, Path.branches [] o = Path.branches [] above ++
      ⟨w.origin, b.origin, Path.kept (above ++ [w, b])⟩ :: more := by
  rw [touchesPath_eq] at ht
  rcases hq : splitAtLast? (fun s : Step Tag => a.isTarget s.data) rest with _ | ⟨x, t, y⟩
  · -- the component has been entered above, by the last entity there
    rw [hq] at ht
    have inside : place ≠ .outside := by simpa using ht
    rcases after?_trunk (a := a) hA (by simp : Place.outside ≠ .within) with
      ⟨-, after⟩ | ⟨front, z, back, rfl, -, last, after⟩
    · exact absurd (Option.some.inj (hplace.symm.trans after)) inside
    · have own := Option.some.inj (hplace.symm.trans after)
      have target : a.isTarget z.data = true := by
        cases strange : a.isTarget z.data with
        | true => rfl
        | false => exact absurd (own.trans (if_neg (by simp [strange]))) inside
      exact branches_of_entered hA hw hb target last (Path.splitAtLast?_eq_none.1 hq) ho
  · rw [hq] at ht
    obtain ⟨rfl, target, others⟩ := Path.exists_of_splitAtLast? hq
    exact branches_of_target_below hA hw hb h target others (by simpa using ht) ho

/-- Where another entity stands last on the trunk, nothing is seen of what stands further down. -/
theorem branches_of_left {front back later : Path Tag} {z : Step Tag}
    (trunk : Path.IsTrunk (front ++ z :: back)) (entity : z.data.entity?.isSome = true)
    (strange : a.isTarget z.data = false) (last : ∀ s ∈ back, s.data.entity? = none)
    (others : ∀ s ∈ later, a.isTarget s.data = false)
    (ho : ownedPath? a.kind a.key (front ++ z :: back ++ later) = some o) :
    Path.branches [] o <+: Path.branches [] (front ++ z :: back) := by
  have lower {more : Path Tag} (hmore : ∀ s ∈ more, a.isTarget s.data = false) :
      ∀ s ∈ z :: (back ++ more), a.isTarget s.data = false :=
    List.forall_mem_cons.2 ⟨strange, List.forall_mem_append.2
      ⟨fun s hs => isTarget_eq_false (last s hs), hmore⟩⟩
  rcases entered : splitAtLast? (fun s : Step Tag => a.isTarget s.data) front with
    _ | ⟨x, t, y⟩
  · have unseen : ownedPath? a.kind a.key (front ++ z :: back ++ later) = none := by
      refine ownedPath?_eq_none.2 fun s hs => ?_
      rw [List.append_assoc] at hs
      rcases List.mem_append.1 hs with hs | hs
      · exact Path.splitAtLast?_eq_none.1 entered s hs
      · exact lower others s hs
    rw [unseen] at ho
    cases ho
  · obtain ⟨rfl, target, between⟩ := Path.exists_of_splitAtLast? entered
    -- what is seen ends at the other entity, with or without what stands further down
    have seen (more : Path Tag) (hmore : ∀ s ∈ more, a.isTarget s.data = false) :
        ownedPath? a.kind a.key (x ++ t :: (y ++ z :: (back ++ more))) =
          some (List.filter (fun s => s.data.isChain) x ++ t :: untilNested (y ++ [z])) := by
      have inside : ∀ s ∈ y ++ z :: (back ++ more), a.isTarget s.data = false :=
        List.forall_mem_append.2 ⟨between, lower hmore⟩
      rw [ownedPath?_append target inside (by simp), untilNested_append_entity entity]
    have path : x ++ t :: y ++ z :: back ++ later = x ++ t :: (y ++ z :: (back ++ later)) := by
      simp
    have bare : x ++ t :: y ++ z :: back = x ++ t :: (y ++ z :: (back ++ [])) := by simp
    have whole := seen [] (by simp)
    rw [path, seen later others] at ho
    obtain rfl := Option.some.inj ho
    rw [← bare] at whole
    exact branches_ownedPath? (trunk.runs none) whole

/-- A path that shows no content of the component below a branch does not show the branch. -/
theorem branches_of_not_touchesPath (hA : above.IsTrunk) (hw : w.data = .conditional)
    (hb : b.data.category = .branch) (hplace : a.after? .outside above = some place)
    (ho : ownedPath? a.kind a.key (above ++ w :: b :: rest) = some o)
    (ht : a.touchesPath (place != .outside) rest = false) :
    Path.branches [] o <+: Path.branches [] above := by
  rw [touchesPath_eq] at ht
  rcases hq : splitAtLast? (fun s : Step Tag => a.isTarget s.data) rest with _ | ⟨x, t, y⟩
  · rw [hq] at ht
    have outside : place = .outside := by simpa using ht
    obtain ⟨plain, plain'⟩ := entity?_of_choice hw hb
    have others : ∀ s ∈ w :: b :: rest, a.isTarget s.data = false :=
      List.forall_mem_cons.2 ⟨isTarget_eq_false plain, List.forall_mem_cons.2
        ⟨isTarget_eq_false plain', Path.splitAtLast?_eq_none.1 hq⟩⟩
    rcases after?_trunk (a := a) hA (by simp : Place.outside ≠ .within) with
      ⟨bare, -⟩ | ⟨front, z, back, rfl, entity, last, after⟩
    · have unseen : ownedPath? a.kind a.key (above ++ w :: b :: rest) = none :=
        ownedPath?_eq_none.2 (List.forall_mem_append.2
          ⟨fun s hs => isTarget_eq_false (bare s hs), others⟩)
      rw [unseen] at ho
      cases ho
    · have own := Option.some.inj (hplace.symm.trans after)
      have strange : a.isTarget z.data = false := by
        cases target : a.isTarget z.data with
        | false => rfl
        | true => simp [outside, target] at own
      exact branches_of_left hA entity strange last others ho
  · rw [hq] at ht
    obtain ⟨rfl, target, -⟩ := Path.exists_of_splitAtLast? hq
    obtain rfl : y = [] := by simpa using ht
    have path : above ++ w :: b :: (x ++ [t]) = (above ++ w :: b :: x) ++ [t] := by simp
    rw [path, ownedPath?_bare target] at ho
    obtain rfl := Option.some.inj ho
    have bare : Path.branches [] [t] = [] := by simp [Path.branches, sitesFrom]
    rw [bare]
    exact List.nil_prefix

end Branch

end Address

end WorldMarkup
