import WorldMarkup.Tree.Outline
import WorldMarkup.World.Tag

/-!
When two tags speak of one thing, and what is kept when their nodes join. Main statements:
sameness is symmetric and transitive, and joining a step to itself changes nothing.
-/

set_option autoImplicit false
set_option relaxedAutoImplicit false

namespace WorldMarkup

namespace Tag

/-- Whether two tags speak of the same thing. Texts, links, breaks and wrappers never do. -/
def same : Tag → Tag → Bool
  | .entity a, .entity b => a.kind = b.kind && a.key = b.key
  | .asset a, .asset b => a = b
  | .exit a _, .exit b _ => a = b
  | .position a _ _, .position b _ _ => a = b
  | .pronouns _, .pronouns _ => true
  | .field a, .field b => a = b
  | .statement a, .statement b => a.condition = b.condition
  | .fallthrough, .fallthrough => true
  | .replaceMatch, .replaceMatch => true
  | .replacePayload, .replacePayload => true
  | .imported a, .imported b => a = b
  | .exported, .exported => true
  | .inherited, .inherited => true
  | _, _ => false

theorem same_comm (a b : Tag) : a.same b = b.same a := by
  cases a <;> cases b <;> simp [same, eq_comm]

theorem same_trans {a b c : Tag} (hab : a.same b = true) (hbc : b.same c = true) :
    a.same c = true := by
  cases a <;> cases b <;> simp [same] at hab <;> cases c <;> simp_all [same]

theorem same_congr {a b : Tag} (h : a.same b = true) (c : Tag) : c.same a = c.same b := by
  rw [Bool.eq_iff_iff]
  constructor
  · exact fun hc => same_trans hc h
  · exact fun hc => same_trans hc (by rwa [same_comm])

end Tag

/-- Local content beats inherited content, and the first name is kept. -/
def Step.settle (existing incoming : Step Tag) : Tag × Extra :=
  (if incoming.extra.inherited && !existing.extra.inherited then existing.data else incoming.data,
    { id := existing.extra.id.or incoming.extra.id
      inherited := existing.extra.inherited && incoming.extra.inherited })

theorem Step.settle_self (s : Step Tag) : s.settle s = (s.data, s.extra) := by
  cases s with
  | mk d e o => cases e with | mk id inh => cases id <;> cases inh <;> rfl

/-- Categories whose siblings may stand in any order. Inline content is not among them, since
the order of text is meaning. -/
def Category.unordered : List Category :=
  [.container, .entity, .field, .listItem, .conditional, .imported, .exported, .edit]

/-- The rules by which world documents regrow. -/
def worldRules : Rules Tag Category where
  category := Tag.category
  same := Tag.same
  combine := Step.settle
  isWrapper := Tag.isWrapper
  unordered := [Category.unordered]

abbrev WorldOutline : Type := Outline Tag Category

def WorldOutline.ofForest (t : Forest Tag) : Except TreeError WorldOutline :=
  Outline.ofForest worldRules t

end WorldMarkup
