import WorldMarkup.Proofs.Form.Regrowth

/-!
Excerpts are content of a field. Main statements: every node of an excerpt stands where it may in
a field, and nothing leads to a field whose excerpt is empty.
-/

set_option autoImplicit false
set_option relaxedAutoImplicit false

namespace WorldMarkup

namespace Forest

theorem absorb_data (n m : Node Tag) :
    (n.absorb m).data = n.data ∨ (n.absorb m).data = m.data :=
  Growth.settle_data ⟨n.data, n.extra, 0⟩ ⟨m.data, m.extra, 0⟩

theorem absorb_children (n m : Node Tag) :
    (n.absorb m).children = n.children ++ m.children := rfl

theorem joinBranch_cases (done : Forest Tag) (b : Node Tag) :
    Forest.joinBranch done b = done ++ [b] ∨
      ∃ before last, done = before ++ [last] ∧ last.data.same b.data = true ∧
        Forest.joinBranch done b = before ++ [last.absorb b] := by
  rw [Forest.joinBranch]
  rcases List.eq_nil_or_concat done with rfl | ⟨before, last, rfl⟩
  · exact .inl rfl
  · rw [List.concat_eq_append, List.getLast?_concat, List.dropLast_concat]
    by_cases hsame : last.data.same b.data = true
    · exact .inr ⟨before, last, rfl, hsame, by simp [hsame]⟩
    · exact .inl (by simp [hsame])

theorem areBranches_append {c : Option Tag} {t u : Forest Tag} :
    Forest.AreBranches c (t ++ u) ↔ Forest.AreBranches c t ∧ Forest.AreBranches c u := by
  induction t with
  | nil => simp [Forest.AreBranches]
  | cons n t ih => cases n; simp [Forest.AreBranches, ih, and_assoc]

theorem areBranches_node {c : Option Tag} {n : Node Tag} {rest : Forest Tag} :
    Forest.AreBranches c (n :: rest) ↔ n.data.category = .branch ∧
      Forest.Fits c n.children ∧ Forest.AreBranches c rest := by
  cases n
  exact Iff.rfl

theorem areBranches_joinBranches {c : Option Tag} {done bs : Forest Tag}
    (hdone : Forest.AreBranches c done) (h : Forest.AreBranches c bs) :
    Forest.AreBranches c (bs.foldl Forest.joinBranch done) := by
  induction bs generalizing done with
  | nil => exact hdone
  | cons b bs ih =>
    obtain ⟨hb, hbelow, hbs⟩ := areBranches_node.1 h
    refine ih ?_ hbs
    rcases joinBranch_cases done b with hjoin | ⟨before, last, rfl, -, hjoin⟩
    · rw [hjoin]
      exact areBranches_append.2 ⟨hdone, areBranches_node.2 ⟨hb, hbelow, trivial⟩⟩
    · rw [hjoin]
      obtain ⟨hbefore, hlast⟩ := areBranches_append.1 hdone
      obtain ⟨hl, hlbelow, -⟩ := areBranches_node.1 hlast
      refine areBranches_append.2 ⟨hbefore, areBranches_node.2 ⟨?_, ?_, trivial⟩⟩
      · rcases absorb_data last b with h | h
        · rw [h]
          exact hl
        · rw [h]
          exact hb
      · rw [absorb_children]
        exact Forest.fits_append.2 ⟨hlbelow, hbelow⟩

theorem joinBranches_ne_nil {done bs : Forest Tag} (h : done ≠ [] ∨ bs ≠ []) :
    bs.foldl Forest.joinBranch done ≠ [] := by
  induction bs generalizing done with
  | nil => simpa using h
  | cons b bs ih =>
    refine ih (.inl ?_)
    rcases joinBranch_cases done b with hjoin | ⟨before, last, -, -, hjoin⟩ <;> simp [hjoin]

end Forest

namespace Address

variable {a : Address}

theorem excerpt_eq_nil_of_not_leads {place : Place} {t : Forest Tag}
    (h : a.leads place t = false) : a.excerpt place t = [] := by
  induction t using Forest.induction generalizing place with
  | nil => rfl
  | cons t e cs rest hcs hrest =>
    simp only [leads, Bool.or_eq_false_iff] at h
    obtain ⟨hnode, hr⟩ := h
    rw [excerpt, hrest hr, List.append_nil, excerptNode]
    rcases hnext : a.next? place t with _ | below
    · rfl
    · have hb : below ≠ .within := by
        rintro rfl
        simp [leadsNode, hnext] at hnode
      have hp : place ≠ .within := by
        rintro rfl
        rw [next?_within] at hnext
        exact hb (Option.some.inj hnext).symm
      by_cases hc : t = .conditional
      · subst hc
        simp [hnode]
      · have hl : a.leads below cs = false := by
          rw [leadsNode, hnext] at hnode
          cases below <;> first | exact hnode | exact absurd rfl hb
        simp [hc, hp, hcs hl]

theorem excerpt_eq_nil (a : Address) {t : Forest Tag} (h : Forest.Fits none t)
    (hview : a.view (contentPaths t) = []) : a.excerpt .outside t = [] := by
  refine excerpt_eq_nil_of_not_leads ?_
  cases hl : a.leads .outside t with
  | false => rfl
  | true =>
    exfalso
    obtain ⟨p, hp, hlp⟩ := (leads_iff 0).1 hl
    have hcontent := (isContent_of_leadsPath (by simp) hlp).1 (Path.fits_of_mem.1 h p hp)
    have hmem : p ∈ contentPaths t := List.mem_filter.2 ⟨hp, decide_eq_true hcontent⟩
    obtain ⟨o, ho, -⟩ := (leadsPath_iff_slot? ((areContent_contentPaths h).runs p hmem)).1 hlp
    have := mem_view.2 ⟨p, hmem, ho⟩
    rw [hview] at this
    simp at this

theorem excerptBranches_ne_nil {place : Place} {c : Option Tag} {t : Forest Tag}
    (ht : Forest.AreBranches c t) (h : a.leads place t = true) :
    a.excerptBranches place t ≠ [] := by
  induction t with
  | nil => simp [leads] at h
  | cons n rest ih =>
    rcases n with ⟨t, e, cs⟩
    rw [leads, Bool.or_eq_true] at h
    rw [excerptBranches]
    rcases h with h | h
    · refine List.append_ne_nil_of_left_ne_nil ?_ _
      by_cases hl : a.leads place cs = true
      · simp [hl]
      · rw [leadsNode, next?_chain place (isChain_of_branch ht.1)] at h
        cases place with
        | within =>
          cases cs with
          | nil =>
            have htarget : a.isTarget t = false := by
              have hb := ht.1
              refine isTarget_eq_false ?_
              cases t <;> simp_all [Tag.category, Tag.entity?]
            have hd : Standardize.isDeclaration t = false := by
              have hb := ht.1
              cases t <;> simp_all [Tag.category, Standardize.isDeclaration]
            simp [leads, touchesNode, htarget, hd]
          | cons n cs =>
            cases n
            simp [leads, leadsNode, next?_within] at hl
        | _ => exact absurd h hl
    · exact List.append_ne_nil_of_right_ne_nil _ (ih ht.2.2 h)

def standing (a : Address) (place : Place) (c : Option Tag) : Option Tag :=
  if place = .within then c else some (.field a.field)

/-- An excerpt is content of the field. -/
theorem fits_excerpt {place : Place} {c : Option Tag} {t : Forest Tag} (hplace : Suits place c) :
    (Forest.Fits c t → Forest.Fits (a.standing place c) (a.excerpt place t)) ∧
      (Forest.AreBranches c t →
        Forest.AreBranches (a.standing place c) (a.excerptBranches place t)) := by
  induction t using Forest.induction generalizing place c with
  | nil => exact ⟨fun _ => trivial, fun _ => trivial⟩
  | cons t e cs rest hcs hrest =>
    refine ⟨fun h => ?_, fun h => ?_⟩
    · rw [excerpt]
      refine Forest.fits_append.2 ⟨?_, (hrest hplace).1 h.2⟩
      obtain ⟨hst, hbelow⟩ := h.1
      rw [excerptNode]
      rcases hnext : a.next? place t with _ | below
      · trivial
      by_cases hcond : t = .conditional
      · subst hcond
        rw [if_pos rfl] at hbelow
        by_cases hl : a.leadsNode place ⟨.conditional, e, cs⟩ = true
        · have hne := excerptBranches_ne_nil hbelow.2 (leads_of_leadsNode hbelow.1 hl)
          simp only [hl, if_true]
          refine ⟨⟨?_, ?_⟩, trivial⟩
          · rw [standing]
            split
            · exact hst
            · simp [Tag.standsIn, Tag.category, Tag.allows, Tag.isInlineContent]
          · rw [if_pos rfl]
            exact ⟨Forest.joinBranches_ne_nil (.inr hne),
              Forest.areBranches_joinBranches trivial ((hcs hplace).2 hbelow.2)⟩
        · simp only [hl, if_false, if_true, Bool.false_eq_true]
          trivial
      · rw [if_neg hcond] at hbelow
        simp only [hcond, if_false]
        by_cases hw : place = .within
        · subst hw
          have hinline := inline_of_suits hplace hst hcond
          have hsuits : Suits .within (some t) := fun _ => ⟨t, rfl, .inr hinline⟩
          have hbelow' := (hcs hsuits).1 hbelow
          rw [if_pos rfl]
          refine ⟨⟨hst, ?_⟩, trivial⟩
          rw [if_neg hcond]
          exact hbelow'
        · rw [if_neg hw]
          have hsuits : Suits below (some t) := by
            rintro rfl
            exact ⟨t, rfl, .inl (by rw [eq_field_of_within hw hnext]; rfl)⟩
          have hsame : a.standing below (some t) = a.standing place c := by
            rw [standing, standing, if_neg hw]
            split
            · rename_i hb
              subst hb
              rw [eq_field_of_within hw hnext]
            · rfl
          rw [← hsame]
          exact (hcs hsuits).1 hbelow
    · rw [excerptBranches]
      refine Forest.areBranches_append.2 ⟨?_, (hrest hplace).2 h.2.2⟩
      split
      · exact ⟨h.1, (hcs hplace).1 h.2.1, trivial⟩
      · split
        · exact ⟨h.1, trivial, trivial⟩
        · trivial

theorem fits_excerpt_top (a : Address) {t : Forest Tag} (h : Forest.Fits none t) :
    Forest.Fits (some (.field a.field)) (a.excerpt .outside t) := by
  have hsuits : Suits .outside none := fun hw => absurd hw (by simp)
  exact (fits_excerpt hsuits).1 h

end Address

end WorldMarkup
