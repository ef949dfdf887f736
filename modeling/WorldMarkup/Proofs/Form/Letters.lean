import WorldMarkup.Proofs.Form.Joined

/-!
Texts letter by letter. A forest is spelled out when each of its texts holds a single character;
spelling out does not see whether runs are joined, and joining runs does not see whether they are
spelled out. Main statement: joining runs is a normal form that two forests share exactly when they
are spelled alike, that reads as they do, and that may be taken of the parts of a forest first.
-/

set_option autoImplicit false
set_option relaxedAutoImplicit false

namespace WorldMarkup

/-- What is read of a single node: the characters of a text, or the node itself, what it holds left
aside. -/
def Tag.letters (e : Extra) : Tag → List (Char ⊕ Tag × Extra)
  | .text value => value.toList.map .inl
  | d => [.inr (d, e)]

/-- The characters of texts, and the other nodes with their extras, in preorder. -/
def Forest.letters (t : Forest Tag) : List (Char ⊕ Tag × Extra) :=
  (Forest.preorder t).flatMap (fun x => x.1.letters x.2)

namespace Forest

/-- A text for each character, the first of them with the extra. -/
def spell (e : Extra) : List Char → Forest Tag
  | [] => []
  | c :: cs => ⟨.text (String.singleton c), e, []⟩ :: spell {} cs

end Forest

mutual

def Node.spelled : Node Tag → Node Tag
  | ⟨d, e, cs⟩ => ⟨d, e, Forest.spelledAfter false cs⟩

/-- Spell out texts at every level. The first character of a run keeps the extra of the text that it
is from, also where the run began in front of the forest. -/
def Forest.spelledAfter (running : Bool) : Forest Tag → Forest Tag
  | [] => []
  | ⟨.text value, e, _⟩ :: rest =>
    Forest.spell (if running then {} else e) value.toList ++
      Forest.spelledAfter (running || !value.isEmpty) rest
  | n :: rest => n.spelled :: Forest.spelledAfter false rest

end

namespace Forest

/-- Spell out texts at every level. -/
def spelled (t : Forest Tag) : Forest Tag := spelledAfter false t

variable {t u : Forest Tag} {d : Tag} {e : Extra} {cs : Forest Tag} {value before : String}
  {running : Bool} {held : Option (Node Tag)}

/-! ### Spelling out -/

theorem spelledAfter_node (apart : d.isText = false) :
    spelledAfter running (⟨d, e, cs⟩ :: t) = ⟨d, e, spelled cs⟩ :: spelled t := by
  cases d <;> first | rfl | simp [Tag.isText, Tag.text?] at apart

theorem spelledAfter_text :
    spelledAfter running (⟨.text value, e, cs⟩ :: t) =
      spell (if running then {} else e) value.toList ++
        spelledAfter (running || !value.isEmpty) t := rfl

theorem spelledAfter_empty :
    spelledAfter running (⟨.text "", e, cs⟩ :: t) = spelledAfter running t := by
  have empty : "".isEmpty = true := rfl
  simp [spelledAfter_text, spell, empty]

theorem spell_append {first : List Char} (filled : first ≠ []) (e : Extra) (rest : List Char) :
    spell e (first ++ rest) = spell e first ++ spell {} rest := by
  induction first generalizing e with
  | nil => exact absurd rfl filled
  | cons c cs ih =>
    cases cs with
    | nil => rfl
    | cons c' cs => exact congrArg _ (ih (by simp) {})

theorem spelledAfter_run (filled : before ≠ "") {e' : Extra} {cs' : Forest Tag} :
    spelledAfter running (⟨.text before, e', cs'⟩ :: ⟨.text value, e, cs⟩ :: t) =
      spelledAfter running (⟨.text (before ++ value), e', cs'⟩ :: t) := by
  have first : before.toList ≠ [] := by simpa using filled
  have kept : before.isEmpty = false := by simpa using filled
  have joined : (before ++ value).isEmpty = false := by simp [filled]
  rw [spelledAfter_text, spelledAfter_text, spelledAfter_text, String.toList_append,
    spell_append first, kept, joined]
  simp

theorem spelledAfter_append_congr (same : ∀ r, spelledAfter r t = spelledAfter r u)
    (before : Forest Tag) :
    spelledAfter running (before ++ t) = spelledAfter running (before ++ u) := by
  induction before generalizing running with
  | nil => exact same running
  | cons n before ih =>
    rcases n with ⟨d, e, cs⟩
    cases text : d.isText with
    | false =>
      rw [List.cons_append, List.cons_append, spelledAfter_node text, spelledAfter_node text]
      exact congrArg _ ih
    | true =>
      obtain ⟨value, rfl⟩ := Tag.eq_text_of_isText text
      rw [List.cons_append, List.cons_append, spelledAfter_text, spelledAfter_text, ih]

/-! ### Spelling out joined runs -/

/-- Joined runs are spelled as they were before, behind the node that is held back. What is held
back is no empty text, or a text that joins it would bring an extra of its own. -/
theorem spelledAfter_joinTextAfter (ends : TextsEnd t) (filled : ∀ n ∈ held, n.data ≠ .text "") :
    spelledAfter running (joinTextAfter held t) = spelledAfter running (held.toList ++ t) := by
  induction t using Forest.induction generalizing held running with
  | nil => rw [joinTextAfter_nil, List.append_nil]
  | cons d e cs rest hcs hrest =>
    obtain ⟨⟨own, inside⟩, beside⟩ := ends
    -- The rest is spelled alike behind any node that it is joined to, whatever is in front of that.
    have next {n : Node Tag} (hn : n.data ≠ .text "") (r : Bool) :
        spelledAfter r (joinTextAfter (some n) rest) = spelledAfter r (n :: rest) :=
      hrest beside (by simpa using hn)
    cases text : d.isText with
    | false =>
      have apart : d ≠ .text "" := Tag.ne_text_of_isText text ""
      have below : spelled (joinTextAfter none cs) = spelled cs := hcs inside (by simp)
      rw [joinTextAfter_cons text]
      refine spelledAfter_append_congr (fun r => ?_) held.toList
      rw [next apart, spelledAfter_node text, spelledAfter_node text, below]
    | true =>
      obtain rfl : cs = [] := own text
      obtain ⟨value, rfl⟩ := Tag.eq_text_of_isText text
      by_cases empty : value = ""
      · subst empty
        rw [joinTextAfter_empty, hrest beside filled]
        exact spelledAfter_append_congr (fun r => spelledAfter_empty.symm) held.toList
      · rcases heldApart_or held with apart | ⟨before, e', cs', rfl⟩
        · rw [joinTextAfter_apart empty apart]
          exact spelledAfter_append_congr (next (by simpa using empty)) held.toList
        · have begun : before ≠ "" := by simpa using filled
          rw [joinTextAfter_run, next (by simp [empty])]
          exact (spelledAfter_run begun).symm

/-- Joining runs does not change how a forest is spelled. -/
theorem spelled_joinText (ends : TextsEnd t) : spelled (joinText t) = spelled t :=
  spelledAfter_joinTextAfter ends (by simp)

/-! ### Joining what is spelled out -/

theorem joinTextAfter_spell_run (e' : Extra) (chars : List Char) :
    joinTextAfter (some ⟨.text before, e, cs⟩) (spell e' chars ++ t) =
      joinTextAfter (some ⟨.text (before ++ String.ofList chars), e, cs⟩) t := by
  induction chars generalizing before e' with
  | nil => simp [spell]
  | cons c chars ih =>
    rw [String.ofList_cons, ← String.append_assoc, ← ih {}]
    exact joinTextAfter_run

theorem joinTextAfter_spell (e : Extra) (value : String) :
    joinTextAfter held (spell e value.toList ++ t) =
      joinTextAfter held (⟨.text value, e, []⟩ :: t) := by
  rcases heldApart_or held with apart | ⟨before, e', cs', rfl⟩
  · obtain ⟨chars, rfl⟩ : ∃ chars, value = String.ofList chars := ⟨_, String.ofList_toList.symm⟩
    rw [String.toList_ofList]
    cases chars with
    | nil => exact (joinTextAfter_empty held).symm
    | cons c chars =>
      rw [spell, List.cons_append, joinTextAfter_apart (by simp) apart, joinTextAfter_spell_run,
        joinTextAfter_apart (by simp) apart, String.ofList_cons]
  · rw [joinTextAfter_spell_run, String.ofList_toList, joinTextAfter_run]

/-- Joining runs does not see whether they are spelled out. A text is held back where a run is
under way. -/
theorem joinTextAfter_spelledAfter (ends : TextsEnd t)
    (begun : running = true → ∃ before e cs, held = some ⟨.text before, e, cs⟩) :
    joinTextAfter held (spelledAfter running t) = joinTextAfter held t := by
  induction t using Forest.induction generalizing held running with
  | nil => rfl
  | cons d e cs rest hcs hrest =>
    obtain ⟨⟨own, inside⟩, beside⟩ := ends
    cases text : d.isText with
    | false =>
      have below : joinTextAfter none (spelled cs) = joinTextAfter none cs := hcs inside (by simp)
      rw [spelledAfter_node text, joinTextAfter_cons text, joinTextAfter_cons text, below]
      exact congrArg _ (hrest beside (by simp))
    | true =>
      obtain rfl : cs = [] := own text
      obtain ⟨value, rfl⟩ := Tag.eq_text_of_isText text
      rw [spelledAfter_text, joinTextAfter_spell]
      by_cases empty : value = ""
      · subst empty
        rw [joinTextAfter_empty, joinTextAfter_empty]
        exact hrest beside (by simpa using begun)
      · rcases heldApart_or held with apart | ⟨before, e', cs', rfl⟩
        · have fresh : running = false := by
            rw [Bool.eq_false_iff]
            intro under
            obtain ⟨before, e', cs', rfl⟩ := begun under
            simp [Tag.isText, Tag.text?] at apart
          rw [joinTextAfter_apart empty apart, joinTextAfter_apart empty apart, fresh]
          exact congrArg _ (hrest beside (by simp))
        · rw [joinTextAfter_run, joinTextAfter_run]
          exact hrest beside (by simp)

theorem joinText_spelled (ends : TextsEnd t) : joinText (spelled t) = joinText t :=
  joinTextAfter_spelledAfter ends (by simp)

/-- Joining runs ends in the same forest exactly for forests that are spelled alike. -/
theorem joinText_eq_joinText_iff (ends : TextsEnd t) (ends' : TextsEnd u) :
    joinText t = joinText u ↔ spelled t = spelled u := by
  constructor
  · intro joined
    rw [← spelled_joinText ends, joined, spelled_joinText ends']
  · intro alike
    rw [← joinText_spelled ends, alike, joinText_spelled ends']

/-! ### Reading -/

/-- Joining runs does not change what is read. -/
theorem letters_joinText (ends : TextsEnd t) : letters (joinText t) = letters t :=
  flatMap_joinTextAfter (f := fun x => x.1.letters x.2) (g := .inl) (fun _ _ => rfl) ends none
    (by simp)

/-- Joining runs is a normal form compatible with setting forests side by side: it is reached at
once, has no empty text and no two texts side by side at any level, reads as the forest did, and is
the same for two forests exactly when they are spelled alike. -/
theorem joinText_isNormalForm (ends : TextsEnd t) (ends' : TextsEnd u) :
    joinText (joinText t) = joinText t ∧
      joinText (t ++ u) = joinText (joinText t ++ joinText u) ∧
      IsJoined (joinText t) ∧
      letters (joinText t) = letters t ∧
      (joinText t = joinText u ↔ spelled t = spelled u) :=
  ⟨joinText_joinText ends, joinText_append ends ends', isJoined_joinText ends,
    letters_joinText ends, joinText_eq_joinText_iff ends ends'⟩

/-- An oak told in runs, by night in others; the last of them is under way at the end. -/
def oakInRuns : Forest Tag :=
  [⟨.text "", .named "before", []⟩, ⟨.text "The ", .named "first", []⟩,
    ⟨.text "old", .named "second", []⟩,
    ⟨.conditional, .named "sight", [
      .branch (.onCondition "night")
        [.leaf (.text ", "), .leaf (.text ""), .leaf (.text "unseen"), .leaf (.text ",")],
      .branch .fallthrough [.leaf (.text "")]]⟩,
    ⟨.text " o", .named "third", []⟩, ⟨.text "ak", .ofBase, []⟩]

def doorBehindOak : Forest Tag :=
  [⟨.text "", .named "seam", []⟩, ⟨.text " door", .named "fourth", []⟩,
    ⟨.lineBreak, .ofBase, []⟩, .leaf (.text "")]

theorem joinText_isNormalForm_oakDoor :
    TextsEnd oakInRuns ∧ TextsEnd doorBehindOak ∧
      joinText (oakInRuns ++ doorBehindOak) = [
        ⟨.text "The old", .named "first", []⟩,
        ⟨.conditional, .named "sight", [
          .branch (.onCondition "night") [.leaf (.text ", unseen,")],
          .branch .fallthrough []]⟩,
        ⟨.text " oak door", .named "third", []⟩, ⟨.lineBreak, .ofBase, []⟩] ∧
      joinText (joinText oakInRuns) = joinText oakInRuns ∧
      joinText (oakInRuns ++ doorBehindOak) =
        joinText (joinText oakInRuns ++ joinText doorBehindOak) ∧
      IsJoined (joinText oakInRuns) ∧
      letters (joinText oakInRuns) = letters oakInRuns ∧
      (joinText oakInRuns = joinText doorBehindOak ↔
        spelled oakInRuns = spelled doorBehindOak) := by
  have oak : TextsEnd oakInRuns := by
    simp [oakInRuns, TextsEnd, Node.TextsEnd, Node.branch, Node.leaf, Tag.onCondition, Tag.isText,
      Tag.text?]
  have door : TextsEnd doorBehindOak := by
    simp [doorBehindOak, TextsEnd, Node.TextsEnd, Node.leaf, Tag.isText, Tag.text?]
  exact ⟨oak, door, by decide +kernel, joinText_isNormalForm oak door⟩

end Forest

end WorldMarkup
