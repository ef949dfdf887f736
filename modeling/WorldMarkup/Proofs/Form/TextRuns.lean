import Mathlib.Data.List.Induction
import WorldMarkup.Proofs.Form.Editing

/-!
Joining runs of text piece by piece. A forest whose runs are joined takes one node after another
at its end, so joining is a fold over the nodes. Main statements: joining runs twice is joining them
once, and runs may be joined in parts of a forest before they are joined in all of it.
-/

set_option autoImplicit false
set_option relaxedAutoImplicit false

namespace WorldMarkup.Forest

/-- Set a node behind a forest whose runs are joined: an empty text is dropped, and a text joins
the text that comes last. -/
def glue (t : Forest Tag) (n : Node Tag) : Forest Tag :=
  match n.data with
  | .text value =>
    if value = "" then t
    else match t.getLast? with
      | some ⟨.text before, e, cs⟩ => t.dropLast ++ [⟨.text (before ++ value), e, cs⟩]
      | _ => t ++ [⟨.text value, n.extra, []⟩]
  | _ => t ++ [n.joinText]

def TextsAreLeaves (t : Forest Tag) : Prop := ∀ n ∈ t, n.data.isText = true → n.children = []

def EndsApart (t : Forest Tag) : Prop := ∀ n ∈ t.getLast?, n.data.isText = false

def IsFilled (t : Forest Tag) : Prop := ∀ n ∈ t, n.data ≠ .text ""

variable {t u v : Forest Tag} {e : Extra} {cs : Forest Tag} {value : String}

theorem textsEnd_iff : TextsEnd t ↔ TextsAreLeaves t ∧ ∀ n ∈ t, TextsEnd n.children := by
  induction t with
  | nil => simp [TextsEnd, TextsAreLeaves]
  | cons n t ih =>
    rw [TextsEnd, ih]
    cases n
    simp only [Node.TextsEnd, TextsAreLeaves, List.forall_mem_cons]
    tauto

theorem TextsEnd.roots (h : TextsEnd t) : TextsAreLeaves t := (textsEnd_iff.1 h).1

theorem TextsEnd.below (h : TextsEnd t) : ∀ n ∈ t, TextsEnd n.children := (textsEnd_iff.1 h).2

theorem glue_node {d : Tag} (apart : d.isText = false) :
    glue t ⟨d, e, cs⟩ = t ++ [⟨d, e, joinText cs⟩] := by
  cases d <;> first | rfl | simp [Tag.isText, Tag.text?] at apart

theorem glue_empty : glue t ⟨.text "", e, cs⟩ = t := by
  simp [glue]

theorem glue_text (filled : value ≠ "") (apart : EndsApart t) :
    glue t ⟨.text value, e, cs⟩ = t ++ [⟨.text value, e, []⟩] := by
  simp only [glue, if_neg filled]
  split
  · rename_i before e' cs' last
    have := apart _ last
    simp [Tag.isText, Tag.text?] at this
  · rfl

theorem glue_run {before : String} {e' : Extra} {cs' : Forest Tag} :
    glue (t ++ [⟨.text before, e', cs'⟩]) ⟨.text value, e, cs⟩ =
      t ++ [⟨.text (before ++ value), e', cs'⟩] := by
  by_cases empty : value = ""
  · subst empty
    simp [glue]
  · simp [glue, empty]

theorem endsApart_or (t : Forest Tag) :
    EndsApart t ∨ ∃ u before e cs, t = u ++ [⟨.text before, e, cs⟩] := by
  rcases List.eq_nil_or_concat t with rfl | ⟨u, ⟨d, e, cs⟩, rfl⟩
  · exact .inl (by simp [EndsApart])
  · cases text : d.isText with
    | false => exact .inl (by simpa [EndsApart] using text)
    | true =>
      obtain ⟨before, rfl⟩ := Tag.eq_text_of_isText text
      exact .inr ⟨u, before, e, cs, by simp⟩

theorem joinTextAfter_some (ends : TextsAreLeaves t) (n : Node Tag) :
    u ++ joinTextAfter (some n) t = t.foldl glue (u ++ [n]) := by
  induction t generalizing u n with
  | nil => rw [joinTextAfter_nil]; rfl
  | cons m rest ih =>
    rcases m with ⟨d, e, cs⟩
    obtain ⟨own, beside⟩ := List.forall_mem_cons.1 ends
    rw [List.foldl_cons]
    cases text : d.isText with
    | false =>
      rw [joinTextAfter_cons text, glue_node text, Option.toList_some, ← List.append_assoc]
      exact ih beside _
    | true =>
      obtain rfl : cs = [] := own text
      obtain ⟨value, rfl⟩ := Tag.eq_text_of_isText text
      by_cases empty : value = ""
      · subst empty
        rw [joinTextAfter_empty, glue_empty]
        exact ih beside n
      · rcases heldApart_or (some n) with apart | ⟨before, e', cs', held⟩
        · have ends : EndsApart (u ++ [n]) := by simpa [EndsApart] using apart
          rw [joinTextAfter_apart empty apart, glue_text empty ends, ← ih beside]
          simp
        · obtain rfl := Option.some.inj held
          rw [joinTextAfter_run, glue_run]
          exact ih beside _

theorem joinText_eq_foldl (ends : TextsAreLeaves t) : joinText t = t.foldl glue [] := by
  rw [joinText]
  induction t with
  | nil => rw [joinTextAfter_nil]; rfl
  | cons m rest ih =>
    rcases m with ⟨d, e, cs⟩
    obtain ⟨own, beside⟩ := List.forall_mem_cons.1 ends
    rw [List.foldl_cons]
    cases text : d.isText with
    | false =>
      rw [joinTextAfter_cons text, glue_node text]
      exact joinTextAfter_some beside _
    | true =>
      obtain rfl : cs = [] := own text
      obtain ⟨value, rfl⟩ := Tag.eq_text_of_isText text
      by_cases empty : value = ""
      · subst empty
        rw [joinTextAfter_empty, glue_empty]
        exact ih beside
      · rw [joinTextAfter_apart empty (by simp), glue_text empty (by simp [EndsApart])]
        exact joinTextAfter_some (u := []) beside _

theorem IsFilled.glue (filled : IsFilled t) (n : Node Tag) : IsFilled (glue t n) := by
  rcases n with ⟨d, e, cs⟩
  intro m hm
  cases text : d.isText with
  | false =>
    rw [glue_node text, List.mem_append, List.mem_singleton] at hm
    rcases hm with hm | rfl
    · exact filled m hm
    · exact Tag.ne_text_of_isText text ""
  | true =>
    obtain ⟨value, rfl⟩ := Tag.eq_text_of_isText text
    by_cases empty : value = ""
    · subst empty
      rw [glue_empty] at hm
      exact filled m hm
    · rcases endsApart_or t with apart | ⟨u, before, e', cs', rfl⟩
      · rw [glue_text empty apart, List.mem_append, List.mem_singleton] at hm
        rcases hm with hm | rfl
        · exact filled m hm
        · simpa using empty
      · rw [glue_run, List.mem_append, List.mem_singleton] at hm
        rcases hm with hm | rfl
        · exact filled m (by simp [hm])
        · simp [empty]

theorem isFilled_foldl (filled : IsFilled t) : IsFilled (u.foldl glue t) := by
  induction u generalizing t with
  | nil => exact filled
  | cons n u ih => exact ih (filled.glue n)

theorem textsAreLeaves_append :
    TextsAreLeaves (t ++ u) ↔ TextsAreLeaves t ∧ TextsAreLeaves u := by
  simp [TextsAreLeaves, or_imp, forall_and]

theorem textsAreLeaves_concat {n : Node Tag} :
    TextsAreLeaves (t ++ [n]) ↔ TextsAreLeaves t ∧ (n.data.isText = true → n.children = []) := by
  simp [TextsAreLeaves, or_imp, forall_and]

theorem TextsAreLeaves.glue (ends : TextsAreLeaves t) (n : Node Tag) :
    TextsAreLeaves (glue t n) := by
  rcases n with ⟨d, e, cs⟩
  cases text : d.isText with
  | false =>
    rw [glue_node text, textsAreLeaves_concat]
    exact ⟨ends, by simp [text]⟩
  | true =>
    obtain ⟨value, rfl⟩ := Tag.eq_text_of_isText text
    by_cases empty : value = ""
    · subst empty
      rwa [glue_empty]
    · rcases endsApart_or t with apart | ⟨u, before, e', cs', rfl⟩
      · rw [glue_text empty apart, textsAreLeaves_concat]
        exact ⟨ends, by simp⟩
      · obtain ⟨others, last⟩ := textsAreLeaves_concat.1 ends
        rw [glue_run, textsAreLeaves_concat]
        exact ⟨others, fun _ => last rfl⟩

theorem textsAreLeaves_joinText (ends : TextsAreLeaves t) : TextsAreLeaves (joinText t) := by
  have grown {u v : Forest Tag} (h : TextsAreLeaves v) : TextsAreLeaves (u.foldl glue v) := by
    induction u generalizing v with
    | nil => exact h
    | cons n u ih => exact ih (h.glue n)
  rw [joinText_eq_foldl ends]
  exact grown (by simp [TextsAreLeaves])

theorem joinText_concat {n : Node Tag} (ends : TextsAreLeaves (t ++ [n])) :
    joinText (t ++ [n]) = glue (joinText t) n := by
  rw [joinText_eq_foldl ends, joinText_eq_foldl (textsAreLeaves_concat.1 ends).1,
    List.foldl_append]
  rfl

theorem isFilled_joinText (ends : TextsAreLeaves t) : IsFilled (joinText t) := by
  rw [joinText_eq_foldl ends]
  exact isFilled_foldl (by simp [IsFilled])

theorem glue_glue {before : String} (filled : before ≠ "") {e' : Extra} {cs' : Forest Tag} :
    glue (glue t ⟨.text before, e', cs'⟩) ⟨.text value, e, cs⟩ =
      glue t ⟨.text (before ++ value), e', cs'⟩ := by
  rcases endsApart_or t with apart | ⟨u, first, e'', cs'', rfl⟩
  · rw [glue_text filled apart, glue_run, glue_text (by simp [filled]) apart]
  · rw [glue_run, glue_run, glue_run, String.append_assoc]

/-- Setting a node behind joined runs first, and then all behind others, is setting the node
behind them all. -/
theorem foldl_glue (filled : IsFilled u) {n : Node Tag}
    (joined : joinText (joinText n.children) = joinText n.children) :
    (glue u n).foldl glue t = glue (u.foldl glue t) n := by
  rcases n with ⟨d, e, cs⟩
  cases text : d.isText with
  | false =>
    rw [glue_node text, List.foldl_append]
    simp only [List.foldl_cons, List.foldl_nil]
    rw [glue_node text, glue_node text, joined]
  | true =>
    obtain ⟨value, rfl⟩ := Tag.eq_text_of_isText text
    by_cases empty : value = ""
    · subst empty
      rw [glue_empty, glue_empty]
    · rcases endsApart_or u with apart | ⟨u, before, e', cs', rfl⟩
      · rw [glue_text empty apart, List.foldl_append]
        simp [glue]
      · have before_filled : before ≠ "" := by
          rintro rfl
          exact filled ⟨.text "", e', cs'⟩ (by simp) rfl
        rw [glue_run, List.foldl_append, List.foldl_append]
        simp only [List.foldl_cons, List.foldl_nil]
        rw [glue_glue before_filled]

/-- Setting joined runs behind others is setting the forest behind them, if joining runs below
its nodes twice is joining them once. -/
theorem foldl_joinText (ends : TextsAreLeaves u)
    (joined : ∀ n ∈ u, joinText (joinText n.children) = joinText n.children) :
    (joinText u).foldl glue t = u.foldl glue t := by
  rw [joinText_eq_foldl ends]
  clear ends
  induction u using List.reverseRecOn with
  | nil => rfl
  | append_singleton u n ih =>
    rw [List.foldl_append, List.foldl_append]
    simp only [List.foldl_cons, List.foldl_nil]
    rw [foldl_glue (isFilled_foldl (by simp [IsFilled])) (joined n (by simp)),
      ih (fun m hm => joined m (by simp [hm]))]

theorem joinText_joinText_of_below (ends : TextsAreLeaves t)
    (below : ∀ n ∈ t, joinText (joinText n.children) = joinText n.children) :
    joinText (joinText t) = joinText t := by
  rw [joinText_eq_foldl (textsAreLeaves_joinText ends), foldl_joinText ends below,
    ← joinText_eq_foldl ends]

theorem joinText_joinText_below (ends : TextsEnd t) :
    ∀ n ∈ t, joinText (joinText n.children) = joinText n.children := by
  induction t using Forest.induction with
  | nil => simp
  | cons d e cs rest hcs hrest =>
    obtain ⟨⟨-, inside⟩, beside⟩ := ends
    intro n hn
    rcases List.mem_cons.1 hn with rfl | hn
    · exact joinText_joinText_of_below inside.roots (hcs inside)
    · exact hrest beside n hn

/-- Joining runs twice is joining them once. -/
theorem joinText_joinText (ends : TextsEnd t) : joinText (joinText t) = joinText t :=
  joinText_joinText_of_below ends.roots (joinText_joinText_below ends)

theorem joinText_append_left (ends : TextsEnd t) (leaves : TextsAreLeaves u) :
    joinText (joinText t ++ u) = joinText (t ++ u) := by
  rw [joinText_eq_foldl (textsAreLeaves_append.2 ⟨textsAreLeaves_joinText ends.roots, leaves⟩),
    joinText_eq_foldl (textsAreLeaves_append.2 ⟨ends.roots, leaves⟩), List.foldl_append,
    List.foldl_append, foldl_joinText ends.roots (joinText_joinText_below ends)]

theorem joinText_append_right (leaves : TextsAreLeaves t) (ends : TextsEnd u) :
    joinText (t ++ joinText u) = joinText (t ++ u) := by
  rw [joinText_eq_foldl (textsAreLeaves_append.2 ⟨leaves, textsAreLeaves_joinText ends.roots⟩),
    joinText_eq_foldl (textsAreLeaves_append.2 ⟨leaves, ends.roots⟩), List.foldl_append,
    List.foldl_append, foldl_joinText ends.roots (joinText_joinText_below ends)]

/-- Runs may be joined in the parts of a forest before they are joined across the seam. -/
theorem joinText_append (ends : TextsEnd t) (ends' : TextsEnd u) :
    joinText (t ++ u) = joinText (joinText t ++ joinText u) := by
  rw [joinText_append_left ends (textsAreLeaves_joinText ends'.roots),
    joinText_append_right ends.roots ends']

end WorldMarkup.Forest
