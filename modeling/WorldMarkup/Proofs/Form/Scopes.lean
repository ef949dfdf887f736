import WorldMarkup.Proofs.Form.Editing

/-!
The grammar of documents told by scopes: below a conditional stand its branches, below a
replacement its halves, and elsewhere what the nearest tag above allows that decides for itself.
Main statements: edits can be resolved under this rule, once a link may hold a space; accepted
content stands under it when the wrappers of inherited content are dissolved; and what stands
under it has no fault but its depth or a space in a link.
-/

set_option autoImplicit false
set_option relaxedAutoImplicit false

namespace WorldMarkup

/-- All that counts of an entity for what may stand below it. -/
def EntityKind.frame (kind : EntityKind) : Tag := .entity (.ofKind kind "")

namespace Tag

/-- All that counts of a tag for what may stand below it. -/
def frame : Tag → Tag
  | .asset _ => .asset ""
  | .entity e => e.kind.frame
  | .imported _ | .exported => .exported
  | .field _ => .field .name
  | .link _ => .link ""
  | _ => .space

theorem allows_frame (context t : Tag) : context.frame.allows t = context.allows t := by
  cases context <;> simp [frame, EntityKind.frame, allows]

theorem Kin.frame_eq {a b : Tag} (h : a.Kin b) : a.frame = b.frame := by
  rcases h with rfl | h
  · rfl
  · cases a <;> cases b <;> simp_all [same, frame]

theorem category_of_allows {context t : Tag} (h : context.allows t = true) :
    t.category ≠ .branch ∧ t.category ≠ .editBranch := by
  cases t <;> simp only [category, ne_eq, reduceCtorEq, not_false_eq_true, and_self]
  all_goals
    cases context <;> simp [allows, inEntity, isInlineContent, isText, text?, entity?] at h

theorem allows_edits {context t : Tag} (edit : t.category = .edit) (h : context.allows t = true) :
    context.allows .remove = true ∧ context.allows .replace = true := by
  cases t <;> simp [category] at edit
  all_goals
    cases context <;>
      simp_all [allows, inEntity, isInlineContent, isText, text?, entity?]

theorem allows_texts {context : Tag} {value : String} (h : context.allows (.text value) = true) :
    (context.allows .space = true ∨ ∃ target, context = .link target) ∧
      ∀ other, context.allows (.text other) = true := by
  cases context <;> simp_all [allows, inEntity, isInlineContent, isText, text?, entity?]

end Tag

/-! ### Scopes -/

/-- What a node opens for what stands below it; the context is the nearest tag above that decides
for itself. -/
inductive Scope
  /-- What the context allows. -/
  | content (context : Tag)
  /-- The branches of a conditional. -/
  | branches (context : Tag)
  /-- The halves of a replacement. -/
  | halves (context : Tag)

namespace Scope

def context : Scope → Tag
  | .content context | .branches context | .halves context => context

/-- Whether the tag may stand in the scope. A link may hold a space, too: resolving edits leaves
one where it cuts a text short. -/
def Admits : Scope → Tag → Prop
  | .content context, t =>
    context.allows t = true ∨ (∃ target, context = .link target) ∧ t = .space
  | .branches _, t => t.category = .branch
  | .halves _, t => t.category = .editBranch

def below (scope : Scope) (t : Tag) : Scope :=
  match t with
  | .conditional => .branches scope.context
  | .replace => .halves scope.context
  | t => .content (if t.isTransparent then scope.context else t.frame)

variable {scope : Scope} {a b t : Tag}

theorem below_eq_of_kin (kin : a.Kin b) : scope.below a = scope.below b := by
  rcases kin with rfl | same
  · rfl
  · have frame := Tag.Kin.frame_eq (.inr same)
    cases a <;> cases b <;> simp_all [Tag.same, below, Tag.isTransparent]

theorem exists_content (h : scope.Admits t) (branch : t.category ≠ .branch)
    (half : t.category ≠ .editBranch) : scope = .content scope.context := by
  cases scope with
  | content context => rfl
  | branches context => exact absurd h branch
  | halves context => exact absurd h half

end Scope

/-- Every node stands where the grammar of documents has it, no property it must have is missing,
and no wrapper of inherited content is left. -/
def Tag.standsLawfully : Standing Scope where
  allows scope t := scope.Admits t ∧ t.missing? = none ∧ t ≠ .inherited
  below := Scope.below

theorem Tag.editable_standsLawfully : Tag.standsLawfully.Editable where
  toRespects := Standing.respects_of_eq Scope.below_eq_of_kin
  edits := by
    rintro scope t edit ⟨admitted, -, -⟩
    obtain ⟨context, rfl⟩ : ∃ context, scope = .content context :=
      ⟨_, Scope.exists_content admitted (by simp [edit]) (by simp [edit])⟩
    rcases admitted with allowed | ⟨-, rfl⟩
    · obtain ⟨removes, replaces⟩ := allows_edits edit allowed
      exact ⟨⟨.inl removes, rfl, by simp⟩, ⟨.inl replaces, rfl, by simp⟩, ⟨rfl, rfl, by simp⟩,
        ⟨rfl, rfl, by simp⟩, rfl, rfl, rfl⟩
    · simp [category] at edit
  texts := by
    rintro scope value ⟨admitted, -, -⟩
    obtain ⟨context, rfl⟩ : ∃ context, scope = .content context :=
      ⟨_, Scope.exists_content admitted (by simp [category]) (by simp [category])⟩
    rcases admitted with allowed | ⟨-, text⟩
    · obtain ⟨space, texts⟩ := allows_texts allowed
      refine ⟨⟨?_, rfl, by simp⟩, fun other => ⟨.inl (texts other), rfl, by simp⟩⟩
      exact space.imp_right fun link => ⟨link, rfl⟩
    · simp at text
  ends := by
    rintro scope value t ⟨admitted, -, -⟩
    rcases admitted with allowed | ⟨⟨target, link⟩, -⟩
    · simp [isTransparent, frame, allows] at allowed
    · simp [isTransparent, frame] at link

/-! ### Accepted content -/

/-- The scope that a setting amounts to. -/
def Setting.scope (s : Setting) : Scope :=
  match s.parent with
  | .conditional => .branches s.context.frame
  | .replace => .halves s.context.frame
  | _ => .content s.context.frame

namespace Setting

variable {s : Setting} {t : Tag}

theorem context_scope (s : Setting) : s.scope.context = s.context.frame := by
  unfold scope
  split <;> rfl

theorem scope_below (s : Setting) (t : Tag) :
    (Setting.below (some s) t).scope = s.scope.below t := by
  unfold Scope.below
  rw [context_scope]
  cases t <;> rfl

theorem admits_scope (allowed : s.parent.allowsChild s.context t = true) : s.scope.Admits t := by
  unfold scope
  split
  · rename_i parent
    show t.category = .branch
    simpa [Tag.allowsChild, parent] using allowed
  · rename_i parent
    show t.category = .editBranch
    simpa [Tag.allowsChild, parent] using allowed
  · rename_i notConditional notReplace
    refine .inl ?_
    rw [Tag.allows_frame]
    exact Tag.allows_of_allowsChild allowed notConditional notReplace

theorem allows_of_admits_scope (h : s.scope.Admits t) :
    s.parent.allowsChild s.context t = true ∨
      (s.parent.blamed s.context).label = "Link" ∧ t.label = "Space" := by
  unfold scope at h
  split at h
  · rename_i parent
    have branch : t.category = .branch := h
    left
    simpa [Tag.allowsChild, parent] using branch
  · rename_i parent
    have half : t.category = .editBranch := h
    left
    simpa [Tag.allowsChild, parent] using half
  · rename_i notConditional notReplace
    rcases h with allowed | ⟨⟨target, link⟩, rfl⟩
    · left
      rw [Tag.allows_frame] at allowed
      obtain ⟨branch, half⟩ := Tag.category_of_allows allowed
      cases hparent : s.parent <;> cases t <;> simp_all [Tag.allowsChild, Tag.category]
    · right
      have context : s.context.label = "Link" := by
        cases hcontext : s.context <;> simp_all [Tag.frame, EntityKind.frame, Tag.label]
      cases hparent : s.parent <;> simp_all [Tag.blamed, Tag.label]

end Setting

theorem stands_lawfully_liftInherited {t : Forest Tag} {s : Setting} {depth : Nat}
    (h : Forest.grammarFault? (some s) depth t = none) (b : Bool) :
    Forest.Stands Tag.standsLawfully s.scope (Forest.liftInherited b t) := by
  induction t using Forest.induction generalizing s depth b with
  | nil => trivial
  | cons t e cs rest hcs hrest =>
    obtain ⟨fault, inside, others⟩ := grammarFault?_cons h
    have admitted := Setting.admits_scope ((Tag.fault?_none fault).2 s rfl)
    rw [Forest.liftInherited, Forest.stands_append]
    refine ⟨?_, hrest others b⟩
    have below := fun b => hcs inside b
    simp only [Setting.scope_below] at below
    by_cases inherited : t = .inherited
    · subst inherited
      rw [Node.liftInherited, if_pos rfl]
      have stays : s.scope.below .inherited = s.scope :=
        (Scope.exists_content admitted (by simp [Tag.category]) (by simp [Tag.category])).symm
      rw [← stays]
      exact below true
    · rw [Node.liftInherited, if_neg inherited]
      exact ⟨⟨⟨admitted, Tag.missing?_of_fault?_none fault, inherited⟩, below _⟩, trivial⟩

theorem fault_of_stands_lawfully {t : Forest Tag} {s : Setting} {depth : Nat}
    (h : Forest.Stands Tag.standsLawfully s.scope t) {fault : DocumentError}
    (found : Forest.grammarFault? (some s) depth t = some fault) :
    fault = .tooDeep maxDepth ∨ fault = .disallowedChild "Link" "Space" := by
  induction t using Forest.induction generalizing s depth with
  | nil => simp [Forest.grammarFault?] at found
  | cons t e cs rest hcs hrest =>
    obtain ⟨⟨⟨admitted, named, -⟩, inside⟩, others⟩ := h
    rw [Forest.grammarFault?, Node.grammarFault?, Option.or_eq_some_iff,
      Option.or_eq_some_iff] at found
    rcases found with (own | ⟨-, below⟩) | ⟨-, beside⟩
    · unfold Tag.fault? at own
      split at own
      · exact .inl (Option.some.inj own).symm
      · rcases Setting.allows_of_admits_scope admitted with allowed | ⟨blamed, label⟩
        · simp [named, allowed] at own
        · right
          have own : DocumentError.disallowedChild (s.parent.blamed s.context).label t.label =
              fault := by
            simp only [named, Option.none_or, Option.bind_some] at own
            split at own
            · simp at own
            · exact Option.some.inj own
          rw [← own, blamed, label]
    · apply hcs _ below
      rw [Setting.scope_below]
      exact inside
    · exact hrest others beside

end WorldMarkup
