import WorldMarkup.Proofs.Form.TextRuns

/-!
Resolving edits, and how texts are cut into runs. Siblings among which an edit stands have their
runs joined before it is resolved; where none stands, texts are passed by and hold nothing to be
resolved. Main statement: resolving edits and joining runs first, or joining runs alone before, ends
in the same forest or in the same error.
-/

set_option autoImplicit false
set_option relaxedAutoImplicit false

namespace WorldMarkup

open Forest

namespace Edit

variable {f : Forest Tag → Except FormError (Forest Tag)} {t u : Forest Tag}

theorem any_isEdit_glue (n : Node Tag) :
    List.any (glue t n) isEdit = (List.any t isEdit || isEdit n) := by
  rcases n with ⟨d, e, cs⟩
  cases text : d.isText with
  | false => simp [glue_node text, isEdit]
  | true =>
    obtain ⟨value, rfl⟩ := Tag.eq_text_of_isText text
    by_cases empty : value = ""
    · subst empty
      simp [glue_empty, isEdit, Tag.category]
    · rcases endsApart_or t with apart | ⟨u, before, e', cs', rfl⟩
      · simp [glue_text empty apart, isEdit, Tag.category]
      · simp [glue_run, isEdit, Tag.category]

theorem any_isEdit_joinText (ends : TextsAreLeaves t) :
    List.any (joinText t) isEdit = List.any t isEdit := by
  induction t using List.reverseRecOn with
  | nil => rfl
  | append_singleton t n ih =>
    rw [joinText_concat ends, any_isEdit_glue, ih (textsAreLeaves_concat.1 ends).1]
    simp

/-! ### Operations on children -/

theorem onChildren_concat (n : Node Tag) :
    onChildren f (t ++ [n]) = (do
      let children ← f n.children
      let before ← onChildren f t
      pure (before ++ [{ n with children }])) := by
  induction t with
  | nil =>
    rw [List.nil_append, onChildren, onChildren]
    cases f n.children <;> rfl
  | cons m t ih =>
    rw [List.cons_append, onChildren, ih, onChildren]
    cases f n.children <;> cases onChildren f t <;> cases f m.children <;> rfl

theorem textsAreLeaves_onChildren (none : f [] = .ok []) (ends : TextsAreLeaves t)
    (h : onChildren f t = .ok u) : TextsAreLeaves u := by
  have pairs := forall₂_onChildren h
  clear h
  induction pairs with
  | nil => exact ends
  | @cons n m ns ms same rest ih =>
    obtain ⟨own, beside⟩ := List.forall_mem_cons.1 ends
    obtain ⟨hdata, -, hchildren⟩ := same
    refine List.forall_mem_cons.2 ⟨fun text => ?_, ih beside⟩
    rw [own (hdata ▸ text), none] at hchildren
    exact (Except.ok.inj hchildren).symm

theorem onChildren_concat_text (none : f [] = .ok []) (value : String) (e : Extra) :
    onChildren f (t ++ [⟨.text value, e, []⟩]) =
      (onChildren f t).map (fun before => before ++ [⟨.text value, e, []⟩]) := by
  rw [onChildren_concat, none]
  cases onChildren f t <;> rfl

/-- Two outcomes are the same error, or forests with the same runs joined. -/
def AgreeJoined (x y : Except FormError (Forest Tag)) : Prop :=
  x.map joinText = y.map joinText

theorem agreeJoined_ok : AgreeJoined (.ok t) (.ok u) ↔ joinText t = joinText u := by
  simp [AgreeJoined, Except.map]

theorem AgreeJoined.cases {x y : Except FormError (Forest Tag)} (h : AgreeJoined x y) :
    (∃ e, x = .error e ∧ y = .error e) ∨
      ∃ t u, x = .ok t ∧ y = .ok u ∧ joinText t = joinText u := by
  cases x <;> cases y <;> simp_all [AgreeJoined, Except.map]

theorem textsAreLeaves_concat_text (ends : TextsAreLeaves t) (value : String) (e : Extra) :
    TextsAreLeaves (t ++ [⟨.text value, e, []⟩]) :=
  textsAreLeaves_concat.2 ⟨ends, fun _ => rfl⟩

theorem agreeJoined_glue_text (none : f [] = .ok []) (filled : IsFilled t)
    (ends : TextsAreLeaves t) (value : String) (e : Extra) :
    AgreeJoined (onChildren f (glue t ⟨.text value, e, []⟩))
      (onChildren f (t ++ [⟨.text value, e, []⟩])) := by
  by_cases empty : value = ""
  · subst empty
    rw [glue_empty, onChildren_concat_text none]
    cases h : onChildren f t with
    | error => rfl
    | ok u =>
      have leaves := textsAreLeaves_concat_text (textsAreLeaves_onChildren none ends h) "" e
      exact agreeJoined_ok.2 (by rw [joinText_concat leaves, glue_empty])
  · rcases endsApart_or t with apart | ⟨v, before, e', cs', rfl⟩
    · rw [glue_text empty apart]
      rfl
    · obtain ⟨others, last⟩ := textsAreLeaves_concat.1 ends
      obtain rfl : cs' = [] := last rfl
      have held : before ≠ "" := by
        rintro rfl
        exact filled ⟨.text "", e', []⟩ (by simp) rfl
      rw [glue_run, onChildren_concat_text none, onChildren_concat_text none,
        onChildren_concat_text none]
      cases h : onChildren f v with
      | error => rfl
      | ok w =>
        have leaves := textsAreLeaves_onChildren none others h
        have first := textsAreLeaves_concat_text leaves before e'
        refine agreeJoined_ok.2 ?_
        rw [joinText_concat (textsAreLeaves_concat_text leaves _ _),
          joinText_concat (textsAreLeaves_concat_text first value e), joinText_concat first,
          glue_glue held]

/-- An operation on children does not see how texts are cut into runs, if it does not see it
below any of the nodes. -/
theorem agreeJoined_onChildren (none : f [] = .ok []) (ends : TextsAreLeaves t)
    (below : ∀ n ∈ t, AgreeJoined (f (joinText n.children)) (f n.children)) :
    AgreeJoined (onChildren f (joinText t)) (onChildren f t) := by
  induction t using List.reverseRecOn with
  | nil => rfl
  | append_singleton t n ih =>
    obtain ⟨others, last⟩ := textsAreLeaves_concat.1 ends
    have others' := textsAreLeaves_joinText others
    have before := ih others fun m hm => below m (by simp [hm])
    rw [joinText_concat ends]
    rcases n with ⟨d, e, cs⟩
    cases text : d.isText with
    | true =>
      obtain ⟨value, rfl⟩ := Tag.eq_text_of_isText text
      obtain rfl : cs = [] := last rfl
      refine (agreeJoined_glue_text none (isFilled_joinText others) others' value e).trans ?_
      rw [onChildren_concat_text none, onChildren_concat_text none]
      rcases before.cases with ⟨fault, h, h'⟩ | ⟨u', u, h', h, joined⟩
      · rw [h, h']
      · have leaves' := textsAreLeaves_onChildren none others' h'
        have leaves := textsAreLeaves_onChildren none others h
        rw [h, h']
        refine agreeJoined_ok.2 ?_
        rw [joinText_concat (textsAreLeaves_concat_text leaves' value e),
          joinText_concat (textsAreLeaves_concat_text leaves value e), joined]
    | false =>
      rw [glue_node text, onChildren_concat, onChildren_concat]
      have inside : AgreeJoined (f (joinText cs)) (f cs) := below ⟨d, e, cs⟩ (by simp)
      dsimp only
      rcases inside.cases with ⟨fault, h, h'⟩ | ⟨c', c, hc', hc, below⟩
      · rw [h, h']
        rfl
      · rcases before.cases with ⟨fault, h, h'⟩ | ⟨u', u, h', h, joined⟩
        · rw [hc, hc', h, h']
          rfl
        · have leaves' := textsAreLeaves_onChildren none others' h'
          have leaves := textsAreLeaves_onChildren none others h
          rw [hc, hc', h, h']
          refine agreeJoined_ok.2 ?_
          rw [joinText_concat (textsAreLeaves_concat.2 ⟨leaves', by simp [text]⟩),
            joinText_concat (textsAreLeaves_concat.2 ⟨leaves, by simp [text]⟩), glue_node text,
            glue_node text, joined, below]

theorem depth_lt_of_mem {n : Node Tag} (hn : n ∈ t) :
    Forest.depth n.children < Forest.depth t := by
  induction t with
  | nil => simp at hn
  | cons m t ih =>
    rw [Forest.depth]
    rcases List.mem_cons.1 hn with rfl | hn
    · cases n
      rw [Node.depth]
      dsimp only
      omega
    · have := ih hn
      omega

theorem agreeJoined_resolveWithin {levels : Nat} (ends : TextsEnd t)
    (within : Forest.depth t < levels) :
    AgreeJoined (resolveWithin levels (joinText t)) (resolveWithin levels t) := by
  induction levels generalizing t with
  | zero => omega
  | succ levels ih =>
    rw [resolveWithin, resolveWithin, resolveSiblings, resolveSiblings,
      any_isEdit_joinText ends.roots, joinText_joinText ends]
    split
    · rfl
    · rcases List.eq_nil_or_concat t with rfl | ⟨before, n, rfl⟩
      · rfl
      · have below : ∀ m ∈ before.concat n, Forest.depth m.children < levels := by
          intro m hm
          have := depth_lt_of_mem hm
          omega
        have none : resolveWithin levels [] = .ok [] := by
          have := below n (by simp)
          obtain ⟨levels, rfl⟩ : ∃ k, levels = k + 1 := ⟨levels - 1, by omega⟩
          rfl
        exact agreeJoined_onChildren none ends.roots fun m hm => ih (ends.below m hm) (below m hm)

end Edit

/-- Resolving edits does not see how texts are cut into runs: with the runs joined before, it ends
in the same error, or in a forest that differs in its runs alone. -/
theorem Forest.applyEdits_joinText {t : Forest Tag} (ends : Forest.TextsEnd t)
    (depth : Forest.depth t ≤ maxDepth) :
    (Forest.applyEdits (Forest.joinText t)).map Forest.joinText =
      (Forest.applyEdits t).map Forest.joinText :=
  Edit.agreeJoined_resolveWithin ends (Nat.lt_succ_of_le depth)

/-- A door told in runs, by an edit no more than the oak, and the way beyond it. -/
def doorInRuns : Forest Tag :=
  [.branch (.field .description)
      [.leaf (.text "The oak"), .leaf (.text " door"), .branch .remove [.leaf (.text "door")]],
    .branch (.link "yard") [.leaf (.text "to the"), .leaf (.text " yard")]]

theorem Forest.applyEdits_joinText_doorInRuns :
    Forest.TextsEnd doorInRuns ∧ Forest.depth doorInRuns ≤ maxDepth ∧
      Forest.applyEdits doorInRuns = .ok [
        .branch (.field .description) [.leaf (.text "The oak")],
        .branch (.link "yard") [.leaf (.text "to the"), .leaf (.text " yard")]] ∧
      (Forest.applyEdits (Forest.joinText doorInRuns)).map Forest.joinText =
        (Forest.applyEdits doorInRuns).map Forest.joinText := by
  have ends : Forest.TextsEnd doorInRuns := by
    simp [doorInRuns, Forest.TextsEnd, Node.TextsEnd, Node.branch, Node.leaf, Tag.isText,
      Tag.text?]
  have depth : Forest.depth doorInRuns ≤ maxDepth := by decide
  exact ⟨ends, depth, by decide +kernel, Forest.applyEdits_joinText ends depth⟩

end WorldMarkup
