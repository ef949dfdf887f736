import WorldMarkup.Proofs.Form.TextRuns

/-!
Forests whose runs of text are joined: at no level a text without characters, or two texts side by
side. Main statements: joining runs leaves such a forest, and it leaves such a forest as it is.
-/

set_option autoImplicit false
set_option relaxedAutoImplicit false

namespace WorldMarkup.Forest

/-- At no level a text without characters, or two texts side by side. -/
structure IsJoined (t : Forest Tag) : Prop where
  filled : ∀ x ∈ preorder t, x.1 ≠ .text ""
  apart : textsApart t = true

instance (t : Forest Tag) : Decidable (IsJoined t) :=
  decidable_of_iff ((∀ x ∈ preorder t, x.1 ≠ .text "") ∧ textsApart t = true)
    ⟨fun h => ⟨h.1, h.2⟩, fun h => ⟨h.filled, h.apart⟩⟩

/-- No text comes first. -/
def StartsApart (t : Forest Tag) : Prop := ∀ n ∈ t.head?, n.data.isText = false

variable {t u : Forest Tag} {n : Node Tag}

theorem isJoined_nil : IsJoined [] := ⟨by simp [preorder], rfl⟩

theorem isJoined_cons :
    IsJoined (n :: t) ↔ n.data ≠ .text "" ∧ (n.data.isText = true → StartsApart t) ∧
      IsJoined n.children ∧ IsJoined t := by
  rcases n with ⟨d, e, cs⟩
  have next : t.head?.all (fun m => !m.data.isText) = true ↔ StartsApart t := by
    cases t <;> simp [StartsApart]
  constructor
  · rintro ⟨filled, apart⟩
    simp only [preorder, Node.preorder, List.cons_append, List.forall_mem_cons,
      List.forall_mem_append] at filled
    simp only [textsApart, Node.textsApart, Bool.and_eq_true, Bool.or_eq_true, Bool.not_eq_true',
      next] at apart
    obtain ⟨⟨beside, inside⟩, others⟩ := apart
    exact ⟨filled.1, fun text => beside.resolve_left (by simp [text]), ⟨filled.2.1, inside⟩,
      ⟨filled.2.2, others⟩⟩
  · rintro ⟨own, beside, inside, others⟩
    refine ⟨?_, ?_⟩
    · simp only [preorder, Node.preorder, List.cons_append, List.forall_mem_cons,
        List.forall_mem_append]
      exact ⟨own, inside.filled, others.filled⟩
    · simp only [textsApart, Node.textsApart, Bool.and_eq_true, Bool.or_eq_true,
        Bool.not_eq_true', next]
      refine ⟨⟨?_, inside.apart⟩, others.apart⟩
      cases text : d.isText with
      | false => exact .inl rfl
      | true => exact .inr (beside text)

theorem isJoined_append :
    IsJoined (t ++ u) ↔ IsJoined t ∧ IsJoined u ∧ (EndsApart t ∨ StartsApart u) := by
  induction t with
  | nil => simp [isJoined_nil, EndsApart]
  | cons n t ih =>
    rw [List.cons_append, isJoined_cons, isJoined_cons, ih]
    cases t with
    | nil =>
      have alone : EndsApart [n] ↔ n.data.isText = false := by simp [EndsApart]
      rw [alone]
      cases n.data.isText <;> simp [isJoined_nil, StartsApart, EndsApart] <;> tauto
    | cons m t =>
      have first : StartsApart (m :: t ++ u) ↔ StartsApart (m :: t) := Iff.rfl
      have last : EndsApart (n :: m :: t) ↔ EndsApart (m :: t) := by simp [EndsApart]
      rw [first, last]
      tauto

theorem isJoined_concat :
    IsJoined (t ++ [n]) ↔ IsJoined t ∧ n.data ≠ .text "" ∧ IsJoined n.children ∧
      (n.data.isText = true → EndsApart t) := by
  have alone : StartsApart [n] ↔ n.data.isText = false := by simp [StartsApart]
  rw [isJoined_append, isJoined_cons, alone]
  cases n.data.isText <;> simp [isJoined_nil, StartsApart]
  tauto

theorem IsJoined.children (joined : IsJoined t) (hn : n ∈ t) : IsJoined n.children := by
  induction t with
  | nil => simp at hn
  | cons m t ih =>
    obtain ⟨-, -, inside, others⟩ := isJoined_cons.1 joined
    rcases List.mem_cons.1 hn with rfl | hn
    · exact inside
    · exact ih others hn

/-! ### Joining runs that are joined -/

theorem glue_of_isJoined (joined : IsJoined (t ++ [n]))
    (ends : n.data.isText = true → n.children = []) (below : joinText n.children = n.children) :
    glue t n = t ++ [n] := by
  obtain ⟨-, filled, -, apart⟩ := isJoined_concat.1 joined
  rcases n with ⟨d, e, cs⟩
  cases text : d.isText with
  | false =>
    have below : joinText cs = cs := below
    rw [glue_node text, below]
  | true =>
    obtain ⟨value, rfl⟩ := Tag.eq_text_of_isText text
    obtain rfl : cs = [] := ends text
    refine glue_text ?_ (apart text)
    rintro rfl
    exact filled rfl

theorem joinText_eq_of_below (joined : IsJoined t) (ends : TextsAreLeaves t)
    (below : ∀ n ∈ t, joinText n.children = n.children) : joinText t = t := by
  induction t using List.reverseRecOn with
  | nil => rfl
  | append_singleton t n ih =>
    obtain ⟨others, last⟩ := textsAreLeaves_concat.1 ends
    have before : joinText t = t :=
      ih (isJoined_concat.1 joined).1 others fun m hm => below m (by simp [hm])
    rw [joinText_concat ends, before, glue_of_isJoined joined last (below n (by simp))]

theorem IsJoined.joinText_eq (joined : IsJoined t) (ends : TextsEnd t) : joinText t = t := by
  refine joinText_eq_of_below joined ends.roots ?_
  induction t using Forest.induction with
  | nil => simp
  | cons d e cs rest hcs hrest =>
    obtain ⟨-, -, inside, others⟩ := isJoined_cons.1 joined
    obtain ⟨⟨-, below⟩, beside⟩ := ends
    refine List.forall_mem_cons.2 ⟨?_, hrest others beside⟩
    exact joinText_eq_of_below inside below.roots (hcs inside below)

/-! ### Joining runs -/

theorem IsJoined.glue (joined : IsJoined t) (below : IsJoined (joinText n.children)) :
    IsJoined (glue t n) := by
  rcases n with ⟨d, e, cs⟩
  cases text : d.isText with
  | false =>
    rw [glue_node text]
    exact isJoined_concat.2 ⟨joined, Tag.ne_text_of_isText text "", below, by simp [text]⟩
  | true =>
    obtain ⟨value, rfl⟩ := Tag.eq_text_of_isText text
    by_cases empty : value = ""
    · subst empty
      rwa [glue_empty]
    · rcases endsApart_or t with apart | ⟨u, before, e', cs', rfl⟩
      · rw [glue_text empty apart]
        exact isJoined_concat.2 ⟨joined, by simpa using empty, isJoined_nil, fun _ => apart⟩
      · obtain ⟨others, -, inside, apart⟩ := isJoined_concat.1 joined
        rw [glue_run]
        exact isJoined_concat.2 ⟨others, by simp [empty], inside, fun _ => apart rfl⟩

theorem isJoined_joinText_of_below (ends : TextsAreLeaves t)
    (below : ∀ n ∈ t, IsJoined (joinText n.children)) : IsJoined (joinText t) := by
  induction t using List.reverseRecOn with
  | nil => exact isJoined_nil
  | append_singleton t n ih =>
    rw [joinText_concat ends]
    have before := ih (textsAreLeaves_concat.1 ends).1 fun m hm => below m (by simp [hm])
    exact before.glue (below n (by simp))

theorem isJoined_joinText (ends : TextsEnd t) : IsJoined (joinText t) := by
  refine isJoined_joinText_of_below ends.roots ?_
  induction t using Forest.induction with
  | nil => simp
  | cons d e cs rest hcs hrest =>
    obtain ⟨⟨-, below⟩, beside⟩ := ends
    refine List.forall_mem_cons.2 ⟨?_, hrest beside⟩
    exact isJoined_joinText_of_below below.roots (hcs below)

end WorldMarkup.Forest
