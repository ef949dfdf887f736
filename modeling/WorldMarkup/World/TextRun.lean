import WorldMarkup.World.Tag

/-!
Joining runs of text. Two neighbouring texts read as one, so a canonical forest never holds them
apart, nor a text without characters.
-/

set_option autoImplicit false
set_option relaxedAutoImplicit false

namespace WorldMarkup

mutual

def Node.joinText : Node Tag → Node Tag
  | ⟨t, e, cs⟩ => ⟨t, e, Forest.joinTextAfter none cs⟩

/-- Join runs at every level. The node before the forest is held back, for a text may still join
it; the first text of a run keeps its extra. -/
def Forest.joinTextAfter (held : Option (Node Tag)) : Forest Tag → Forest Tag
  | [] => held.toList
  | ⟨.text value, e, cs⟩ :: rest =>
    if value.isEmpty && cs.isEmpty then Forest.joinTextAfter held rest
    else match held with
      | some ⟨.text before, e', cs'⟩ =>
        Forest.joinTextAfter (some ⟨.text (before ++ value), e', cs'⟩) rest
      | _ => held.toList ++
        Forest.joinTextAfter (some ⟨.text value, e, Forest.joinTextAfter none cs⟩) rest
  | n :: rest => held.toList ++ Forest.joinTextAfter (some n.joinText) rest

end

/-- Join neighbouring texts and drop empty ones, at every level. -/
def Forest.joinText (t : Forest Tag) : Forest Tag := Forest.joinTextAfter none t

end WorldMarkup
