import WorldMarkup.Proofs.Form.Editing
import WorldMarkup.Proofs.Tree.Reordering

/-!
The trees of components. Texts end the paths of lifted content, they end what a component sees of
these paths, also once it is completed, and they stay at the end when steps change places. Main
statement: the tree that grows for a component is tidy.
-/

set_option autoImplicit false
set_option relaxedAutoImplicit false

namespace WorldMarkup

/-! ### Changing the order of steps -/

namespace Path
variable {kind : EntityKind} {key : String}

theorem stepRanks_concat_text (p : Path Tag) {s : Step Tag} (text : s.data.isText = true) :
    ∃ ranks, stepRanks kind key (p ++ [s]) = ranks ++ [none] ∧ ranks.length = p.length := by
  obtain ⟨value, hvalue⟩ := Tag.eq_text_of_isText text
  induction p with
  | nil => exact ⟨[], by simp [stepRanks, hvalue, Tag.isEntityOf, Tag.category, Tag.isChain], rfl⟩
  | cons x p ih =>
    obtain ⟨ranks, hranks, hlength⟩ := ih
    rw [List.cons_append, stepRanks, hranks]
    exact ⟨_ :: ranks, rfl, by rw [List.length_cons, hlength, List.length_cons]⟩

theorem texts_reorder {p : Path Tag} (h : ∀ s ∈ p.dropLast, s.data.isText = false) :
    ∀ s ∈ (reorder (Standardize.reorderings kind key) p).dropLast, s.data.isText = false := by
  rcases List.eq_nil_or_concat p with rfl | ⟨q, x, rfl⟩
  · intro s hs
    have := mem_of_mem_reorder ((List.dropLast_sublist _).subset hs)
    simp at this
  · rw [List.concat_eq_append] at h ⊢
    rw [List.dropLast_concat] at h
    cases text : x.data.isText with
    | false =>
      intro s hs
      have hmem := mem_of_mem_reorder ((List.dropLast_sublist _).subset hs)
      rcases List.mem_append.1 hmem with hq | hx
      · exact h s hq
      · rw [List.mem_singleton.1 hx]
        exact text
    | true =>
      obtain ⟨ranks, hranks, hlength⟩ : ∃ ranks,
          stepRanks kind key (q ++ [x]) = ranks ++ [none] ∧ ranks.length = q.length :=
        stepRanks_concat_text q text
      have ranked : (q ++ [x]).zip (priorities (Standardize.reorderings kind key) (q ++ [x])) =
          q.zip ranks ++ [(x, none)] := by
        rw [priorities_reorderings, hranks, List.zip_append hlength.symm]
        rfl
      have perm := perm_rearrange_priorities (Standardize.reorderings kind key) (q ++ [x])
      rw [ranked, rearrange_concat _ rfl] at perm
      rw [reorder_eq_rearrange, ranked, rearrange_concat _ rfl, List.map_append,
        List.map_singleton, List.dropLast_concat]
      intro s hs
      obtain ⟨y, hy, rfl⟩ := List.mem_map.1 hs
      exact h y.1 (List.of_mem_zip (((List.perm_append_right_iff _).1 perm).mem_iff.1 hy)).1

end Path

/-! ### What a component sees -/

/-- Nothing below a text, and no text right below a conditional. -/
def Tag.StandsRunning (above : Option Tag) (t : Tag) : Prop :=
  ∀ a ∈ above, a.isText = false ∧ (a = .conditional → t.isText = false)

theorem Tag.StandsLifted.running {above : Option Tag} {t : Tag} (h : Tag.StandsLifted above t) :
    Tag.StandsRunning above t := by
  intro a ha
  obtain ⟨decides, branches⟩ := h.2 a ha
  constructor
  · rw [Bool.eq_false_iff]
    intro text
    obtain ⟨value, rfl⟩ := Tag.eq_text_of_isText text
    simpa [Tag.allows] using decides rfl
  · intro conditional
    have branch := branches conditional
    cases t <;> first | rfl | simp [Tag.category] at branch

namespace Address

open Ownership (untilNested ownedPath?)
open SplitChain

variable {a : Address} {docs : List (Path Tag)}

theorem stands_untilNested {above : Option Tag} {q : Path Tag}
    (h : Path.Stands (.under Tag.StandsRunning) above q) :
    Path.Stands (.under Tag.StandsRunning) above (untilNested q) := by
  induction q generalizing above with
  | nil => trivial
  | cons s q ih =>
    rw [untilNested]
    split
    · refine ⟨?_, trivial⟩
      intro x hx
      rw [← (Tag.kin_withoutSource s.data).isText_eq]
      exact h.1 x hx
    · exact ⟨h.1, ih h.2⟩

theorem stands_chain {above : Option Tag} (habove : ∀ x ∈ above, x.isText = false)
    {c : Path Tag} (hc : ∀ s ∈ c, s.data.isChain = true) {t : Step Tag}
    (ht : t.data.isText = false) {r : Path Tag}
    (hr : Path.Stands (.under Tag.StandsRunning) (some t.data) r) :
    Path.Stands (.under Tag.StandsRunning) above (c ++ t :: r) := by
  induction c generalizing above with
  | nil => exact ⟨fun x hx => ⟨habove x hx, fun _ => ht⟩, hr⟩
  | cons s c ih =>
    have hs : s.data.isText = false := by
      have chain := hc s (by simp)
      cases hd : s.data <;> first | rfl | simp [hd, Tag.isChain] at chain
    refine ⟨fun x hx => ⟨habove x hx, fun _ => hs⟩, ih ?_ (fun x hx => hc x (by simp [hx]))⟩
    intro x hx
    obtain rfl := Option.some.inj hx
    exact hs

theorem isText_of_isTarget {t : Tag} (h : a.isTarget t = true) :
    t.isText = false ∧ t ≠ .conditional := by
  obtain ⟨e, rfl, -, -⟩ := exists_entity_of_isTarget h
  exact ⟨rfl, by simp⟩

theorem Path.stands_after {allows : Option Tag → Tag → Prop} {above : Option Tag} {x y : Path Tag}
    {s : Step Tag} (h : Path.Stands (.under allows) above (x ++ s :: y)) :
    Path.Stands (.under allows) (some s.data) y :=
  (Path.stands_append.1 h).2.2

theorem stands_view (hdocs : ∀ p ∈ docs, Path.Stands (.under Tag.StandsRunning) none p)
    {o : Path Tag} (ho : o ∈ a.view docs) : Path.Stands (.under Tag.StandsRunning) none o := by
  obtain ⟨p, hp, hown⟩ := mem_view.1 ho
  obtain ⟨above, t, below, rfl, ht, -, hcase⟩ := ownedPath?_cases hown
  rcases hcase with ⟨-, rfl⟩ | ⟨-, rfl⟩
  · exact ⟨by simp [Tag.StandsRunning], trivial⟩
  · apply stands_chain (by simp) (fun s hs => (List.mem_filter.1 hs).2) (isText_of_isTarget ht).1
    exact stands_untilNested (Path.stands_after (hdocs _ hp))

theorem Path.texts_of_stands {above : Option Tag} {p : Path Tag}
    (h : Path.Stands (.under Tag.StandsRunning) above p) :
    ∀ s ∈ p.dropLast, s.data.isText = false := by
  induction p generalizing above with
  | nil => simp
  | cons s rest ih =>
    cases rest with
    | nil => simp
    | cons x rest =>
      rw [List.dropLast_cons_cons, List.forall_mem_cons]
      exact ⟨(h.2.1 s.data rfl).1, ih h.2⟩

/-- Texts end the completed paths of a component. -/
theorem texts_complete (hdocs : ∀ p ∈ docs, Path.Stands (.under Tag.StandsRunning) none p)
    {p : Path Tag} (h : p ∈ complete a.kind a.key (a.view docs)) :
    ∀ s ∈ p.dropLast, s.data.isText = false := by
  rw [complete_eq_laid] at h
  rcases mem_laid h with h | ⟨o, ho, x, hx, h⟩
  · exact Path.texts_of_stands (stands_view hdocs h)
  · obtain ⟨r, hr, rfl⟩ := List.mem_map.1 h
    obtain ⟨u, w, b, v, rfl, hw, -, -, hpath⟩ := exists_of_mem_sitesFrom hx
    have running := stands_view hdocs ho
    -- a stand-in goes down to a branch, and then on to the entity and the field
    have hcond : w.data.isText = false := by simp [hw, Tag.isText, Tag.text?]
    have hbranch : b.data.isText = false :=
      ((Path.stands_after running).1 w.data rfl).2 hw
    have habove : ∀ y ∈ u, y.data.isText = false := by
      intro y hy
      apply Path.texts_of_stands running
      rw [List.dropLast_append_of_ne_nil (by simp)]
      exact List.mem_append_left _ hy
    intro s hs
    rcases mem_placeholder ((List.dropLast_sublist _).subset hs) with h | h | h
    · rw [hpath] at h
      simp only [List.nil_append, List.mem_append, List.mem_cons, List.not_mem_nil, or_false] at h
      rcases h with h | rfl | rfl
      · exact habove s h
      · exact hcond
      · exact hbranch
    · exact (isText_of_isTarget (targetStep_isTarget (Option.mem_toList.1 h))).1
    · obtain ⟨g, -, hg⟩ := Option.bind_eq_some_iff.1 (Option.mem_toList.1 h)
      obtain ⟨q, -, hsq⟩ := Option.bind_eq_some_iff.1 hg
      have field := List.find?_some hsq
      cases hd : s.data <;> first | rfl | simp [hd, Tag.field?] at field

theorem kin_of_mem_view {o : Path Tag} (ho : o ∈ a.view docs) {s : Step Tag} (hs : s ∈ o) :
    ∃ x ∈ docs.flatten, x.origin = s.origin ∧ s.data.Kin x.data := by
  obtain ⟨p, hp, hown⟩ := mem_view.1 ho
  obtain ⟨above, t, below, rfl, -, -, hcase⟩ := ownedPath?_cases hown
  have seen (q : Path Tag) (hq : s ∈ untilNested q) :
      ∃ x ∈ q, x.origin = s.origin ∧ s.data.Kin x.data := by
    induction q with
    | nil => simp [untilNested] at hq
    | cons y q ih =>
      rw [untilNested] at hq
      split at hq
      · rw [List.mem_singleton.1 hq]
        exact ⟨y, by simp, rfl, (Tag.kin_withoutSource y.data).symm⟩
      · rcases List.mem_cons.1 hq with rfl | hq
        · exact ⟨s, by simp, rfl, .refl _⟩
        · obtain ⟨x, hx, h⟩ := ih hq
          exact ⟨x, by simp [hx], h⟩
  have own {x : Step Tag} (hx : x ∈ above ++ t :: below) : x ∈ docs.flatten :=
    List.mem_flatten.2 ⟨_, hp, hx⟩
  rcases hcase with ⟨-, rfl⟩ | ⟨-, rfl⟩
  · rw [List.mem_singleton.1 hs]
    exact ⟨t, own (by simp), rfl, .refl _⟩
  · rcases List.mem_append.1 hs with hs | hs
    · exact ⟨s, own (by simp [(List.mem_filter.1 hs).1]), rfl, .refl _⟩
    · rcases List.mem_cons.1 hs with rfl | hs
      · exact ⟨s, own (by simp), rfl, .refl _⟩
      · obtain ⟨x, hx, h⟩ := seen below hs
        exact ⟨x, own (by simp [hx]), h⟩

/-- Content paths that agree, and stand as lifted content does. -/
abbrev AreLifted (docs : List (Path Tag)) : Prop :=
  Path.AreStanding (.under Tag.StandsLifted) none docs

theorem AreLifted.lifted (hdocs : AreLifted docs) : ∀ x ∈ docs.flatten, x.data ≠ .inherited := by
  have along {above : Option Tag} {p : Path Tag}
      (h : Path.Stands (.under Tag.StandsLifted) above p) : ∀ x ∈ p, x.data ≠ .inherited := by
    induction p generalizing above with
    | nil => simp
    | cons s rest ih => exact List.forall_mem_cons.2 ⟨h.1.1, ih h.2⟩
  intro x hx
  obtain ⟨p, hp, hxp⟩ := List.mem_flatten.1 hx
  exact along (hdocs.stands p hp) x hxp

theorem kin_of_mem_reordered {s : Step Tag}
    (hs : s ∈ ((complete a.kind a.key (a.view docs)).map
      (Path.reorder (Standardize.reorderings a.kind a.key))).flatten) :
    ∃ x ∈ docs.flatten, x.origin = s.origin ∧ s.data.Kin x.data := by
  obtain ⟨q, hq, hsq⟩ := List.mem_flatten.1 hs
  obtain ⟨p, hp, rfl⟩ := List.mem_map.1 hq
  obtain ⟨o, ho, hso⟩ := exists_of_mem_complete hp (Path.mem_of_mem_reorder hsq)
  exact kin_of_mem_view ho hso

theorem isTidy_grown (hdocs : AreLifted docs) {grown : Forest Tag}
    (h : Standardize.growComponent a.kind a.key (a.view docs) = .ok grown) :
    Forest.IsTidy grown := by
  rw [growComponent_eq h]
  apply Path.isTidy_grown (hdocs.agree.of_steps fun s hs => kin_of_mem_reordered hs)
  · intro s hs
    obtain ⟨x, hx, -, kin⟩ := kin_of_mem_reordered hs
    have lifted := hdocs.lifted x hx
    rintro inherited
    rw [inherited] at kin
    rcases kin with same | same
    · exact lifted same.symm
    · cases hd : x.data <;> simp [hd, Tag.same] at same
      exact lifted hd
  · intro q hq
    obtain ⟨p, hp, rfl⟩ := List.mem_map.1 hq
    have running : ∀ p ∈ docs, Path.Stands (.under Tag.StandsRunning) none p :=
      fun p hp => (hdocs.stands p hp).mono (fun _ _ h => h.running)
    exact Path.texts_reorder (texts_complete running hp)

end Address

end WorldMarkup
