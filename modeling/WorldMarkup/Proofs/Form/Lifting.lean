import WorldMarkup.Proofs.Form.Routing
import WorldMarkup.Proofs.Tree.Standing

/-!
Where the nodes of accepted documents stand once the wrappers of inherited content are dissolved.
Main statement: below a conditional stand its branches, and below a tag that decides for itself
what may stand there stands what it allows.
-/

set_option autoImplicit false
set_option relaxedAutoImplicit false

namespace WorldMarkup

/-- No wrapper of inherited content is left; conditionals hold branches, and tags that are not
transparent what they allow. -/
def Tag.StandsLifted (above : Option Tag) (t : Tag) : Prop :=
  t ≠ .inherited ∧ ∀ a ∈ above,
    (a.isTransparent = false → a.allows t = true) ∧ (a = .conditional → t.category = .branch)

/-- The nearest tag above that is no wrapper of inherited content is the parent, or decides what
may stand below the wrappers. -/
structure Setting.Shows (s : Setting) (above : Tag) : Prop where
  parent : s.parent = above ∨ s.parent = .inherited ∧ above ≠ .conditional
  context : above.isTransparent = false → s.context = above

theorem Setting.shows_below (above : Option Setting) (t : Tag) :
    (Setting.below above t).Shows t := by
  constructor
  · left
    cases above <;> rfl
  · intro h
    cases above <;> simp [below, h]

theorem Setting.Shows.stands {s : Setting} {above t : Tag} (h : s.Shows above)
    (allowed : s.parent.allowsChild s.context t = true) (lifted : t ≠ .inherited) :
    Tag.StandsLifted (some above) t := by
  refine ⟨lifted, ?_⟩
  intro a ha
  obtain rfl := Option.some.inj ha
  constructor
  · intro decides
    have context := h.context decides
    have notConditional : s.parent ≠ .conditional := by
      rcases h.parent with hp | ⟨hp, -⟩
      · rintro hc
        rw [hp] at hc
        simp [hc, Tag.isTransparent] at decides
      · simp [hp]
    have notReplace : s.parent ≠ .replace := by
      rcases h.parent with hp | ⟨hp, -⟩
      · rintro hc
        rw [hp] at hc
        simp [hc, Tag.isTransparent] at decides
      · simp [hp]
    rw [← context]
    exact Tag.allows_of_allowsChild allowed notConditional notReplace
  · rintro rfl
    rcases h.parent with hp | ⟨-, hne⟩
    · rw [hp] at allowed
      simpa [Tag.allowsChild] using allowed
    · exact absurd rfl hne

theorem Setting.Shows.inherited {s : Setting} {above : Tag} (h : s.Shows above)
    (allowed : s.parent.allowsChild s.context .inherited = true) :
    (Setting.below (some s) .inherited).Shows above := by
  constructor
  · refine .inr ⟨rfl, ?_⟩
    rintro rfl
    rcases h.parent with hp | ⟨-, hne⟩
    · rw [hp] at allowed
      simp [Tag.allowsChild, Tag.category] at allowed
    · exact hne rfl
  · intro decides
    have context := h.context decides
    simpa [below, Tag.isTransparent] using context

theorem stands_liftInherited {t : Forest Tag} {s : Setting} {above : Tag} {depth : Nat}
    (h : Forest.grammarFault? (some s) depth t = none) (shows : s.Shows above) (b : Bool) :
    Forest.Stands (.under Tag.StandsLifted) (some above) (Forest.liftInherited b t) := by
  induction t using Forest.induction generalizing s above depth b with
  | nil => trivial
  | cons t e cs rest hcs hrest =>
    obtain ⟨fault, inside, others⟩ := grammarFault?_cons h
    have allowed := (Tag.fault?_none fault).2 s rfl
    rw [Forest.liftInherited, Forest.stands_append]
    refine ⟨?_, hrest others shows b⟩
    by_cases inherited : t = .inherited
    · subst inherited
      rw [Node.liftInherited, if_pos rfl]
      exact hcs inside (shows.inherited allowed) true
    · rw [Node.liftInherited, if_neg inherited]
      exact ⟨⟨shows.stands allowed inherited, hcs inside (Setting.shows_below _ t) _⟩, trivial⟩

theorem Forest.Stands.unrooted {above : Option Tag} {t : Forest Tag}
    (h : Forest.Stands (.under Tag.StandsLifted) above t) :
    Forest.Stands (.under Tag.StandsLifted) none t := by
  rw [Forest.stands_iff] at h ⊢
  intro n hn
  rcases n with ⟨d, e, cs⟩
  obtain ⟨own, below⟩ := h _ hn
  exact ⟨⟨own.1, by simp⟩, below⟩

open Standardize in
/-- The content of accepted documents stands as it may. -/
theorem stands_combined {inputs : List (Forest Tag)}
    (accepted : ∀ t ∈ inputs, Forest.documentFault? t = none) :
    Forest.Stands (.under Tag.StandsLifted) none (combined inputs) := by
  rw [Forest.stands_iff]
  intro m hm
  obtain ⟨t, ht, hm⟩ := List.mem_flatMap.1 hm
  obtain ⟨n, hn, hm⟩ := List.mem_flatMap.1 hm
  obtain ⟨roots, grammar⟩ := Forest.documentFault?_none (accepted t ht)
  have root := roots n hn
  have gnode := Forest.grammarFault?_of_mem grammar hn
  rcases n with ⟨d, e, cs⟩
  have inside : Forest.grammarFault? (some (Setting.below none d)) 1 cs = none := by
    simp only [Node.grammarFault?, Option.or_eq_none_iff] at gnode
    exact gnode.2
  have below (b : Bool) :
      Forest.Stands (.under Tag.StandsLifted) (some d) (Forest.liftInherited b cs) :=
    stands_liftInherited inside (Setting.shows_below none d) b
  cases d with
  | asset key => exact Forest.stands_iff.1 (below false).unrooted m hm
  | entity entity =>
    have lifted : rootContent ⟨.entity entity, e, cs⟩ =
        [⟨.entity entity, { e with inherited := e.inherited },
          Forest.liftInherited e.inherited cs⟩] := by
      simp [rootContent, Node.liftInherited]
    rw [lifted] at hm
    obtain rfl := List.mem_singleton.1 hm
    exact ⟨⟨by simp, by simp⟩, below _⟩
  | _ => simp [Tag.isContainer] at root

end WorldMarkup
