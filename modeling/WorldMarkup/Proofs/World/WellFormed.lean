import WorldMarkup.Proofs.Markup.Reading
import WorldMarkup.World.Grammar

/-!
What the check of a document rules out. Main statements: in a document without faults texts stand
only in fields and links and have no children, branches stand below conditionals and nowhere else,
and no path is longer than the limit on depth.
-/

set_option autoImplicit false
set_option relaxedAutoImplicit false

namespace WorldMarkup

/-! ### Depth -/

theorem Tag.fault?_none {above : Option Setting} {depth : Nat} {t : Tag}
    (h : t.fault? above depth = none) :
    depth < maxDepth ∧ ∀ s, above = some s → s.parent.allowsChild s.context t = true := by
  unfold Tag.fault? at h
  split at h
  · simp at h
  · rename_i shallow
    refine ⟨by omega, ?_⟩
    rintro s rfl
    simp only [Option.or_eq_none_iff, Option.bind_some] at h
    cases allowed : s.parent.allowsChild s.context t with
    | true => rfl
    | false => simp [allowed] at h

theorem Tag.missing?_of_fault?_none {above : Option Setting} {depth : Nat} {t : Tag}
    (h : t.fault? above depth = none) : t.missing? = none := by
  unfold Tag.fault? at h
  split at h
  · simp at h
  · exact (Option.or_eq_none_iff.1 h).1

theorem grammarFault?_cons {above : Option Setting} {depth : Nat} {t : Tag} {e : Extra}
    {cs rest : Forest Tag} (h : Forest.grammarFault? above depth (⟨t, e, cs⟩ :: rest) = none) :
    t.fault? above depth = none ∧
      Forest.grammarFault? (some (Setting.below above t)) (depth + 1) cs = none ∧
      Forest.grammarFault? above depth rest = none := by
  simpa [Forest.grammarFault?, Node.grammarFault?, and_assoc] using h

theorem depth_of_grammarFault? {cs : Forest Tag} {above : Option Setting} {depth : Nat}
    (h : Forest.grammarFault? above depth cs = none) (within : depth ≤ maxDepth) :
    depth + Forest.depth cs ≤ maxDepth := by
  induction cs using Forest.induction generalizing above depth with
  | nil => simpa [Forest.depth] using within
  | cons t e cs rest hcs hrest =>
    obtain ⟨fault, inside, others⟩ := grammarFault?_cons h
    have shallow := (Tag.fault?_none fault).1
    have deep := hcs inside (by omega)
    have wide := hrest others within
    rw [Forest.depth, Node.depth]
    omega

/-! ### Texts and branches -/

namespace Tag

theorem allowsChild_cases {parent context t : Tag} (h : parent.allowsChild context t = true) :
    (parent = .conditional ∧ t.category = .branch) ∨
      (parent ≠ .conditional ∧ t.category ≠ .branch ∧
        (t.category = .editBranch ∨ context.allows t = true)) := by
  by_cases conditional : parent = .conditional
  · subst conditional
    exact .inl ⟨rfl, by simpa [allowsChild] using h⟩
  · refine .inr ⟨conditional, ?_⟩
    by_cases replace : parent = .replace
    · subst replace
      have category : t.category = .editBranch := by simpa [allowsChild] using h
      simp [category]
    · have plain : context.allows t = true ∧ t.category ≠ .branch := by
        cases parent with
        | conditional => exact absurd rfl conditional
        | replace => exact absurd rfl replace
        | _ => cases t <;> simp_all [allowsChild, category]
      exact ⟨plain.2, .inr plain.1⟩

theorem isRunning_of_allows_text {context : Tag} {value : String}
    (h : context.allows (.text value) = true) : context.isRunning = true := by
  cases context <;> first | rfl | simp [allows, entity?, inEntity] at h

theorem not_isRunning_of_allows_inherited {context : Tag}
    (h : context.allows .inherited = true) : context.isRunning = false := by
  cases context <;> first | rfl | simp [allows, isInlineContent, isText, text?] at h

theorem runsWithin_of_not_isTransparent {t : Tag} (h : t.isTransparent = false)
    (running : Bool) : t.runsWithin running = t.isRunning := by
  cases t <;> first | rfl | simp [isTransparent] at h

end Tag

theorem Setting.isRunning_below {s : Setting} {t : Tag}
    (allowed : s.parent.allowsChild s.context t = true) (notBranch : t.category ≠ .branch) :
    (Setting.below (some s) t).context.isRunning = t.runsWithin s.context.isRunning := by
  cases transparent : t.isTransparent with
  | false => simp [below, transparent, Tag.runsWithin_of_not_isTransparent transparent]
  | true =>
    simp only [below, transparent, if_true]
    cases t with
    | inherited =>
      rcases Tag.allowsChild_cases allowed with ⟨-, h⟩ | ⟨-, -, h | h⟩
      · simp [Tag.category] at h
      · simp [Tag.category] at h
      · rw [Tag.not_isRunning_of_allows_inherited h]
        rfl
    | statement s => simp [Tag.category] at notBranch
    | fallthrough => simp [Tag.category] at notBranch
    | conditional => rfl
    | remove => rfl
    | replace => rfl
    | replaceMatch => rfl
    | replacePayload => rfl
    | _ => simp [Tag.isTransparent] at transparent

theorem children_of_text {value : String} {above : Option Setting} {depth : Nat} {cs : Forest Tag}
    (h : Forest.grammarFault? (some (Setting.below above (.text value))) depth cs = none) :
    cs = [] := by
  rcases cs with _ | ⟨⟨t, e, cs⟩, rest⟩
  · rfl
  · have allowed := (Tag.fault?_none (grammarFault?_cons h).1).2 _ rfl
    have setting : Setting.below above (.text value) = ⟨.text value, .text value⟩ := by
      cases above <;> rfl
    rw [setting] at allowed
    rcases Tag.allowsChild_cases allowed with ⟨h, -⟩ | ⟨-, -, h | h⟩
    · simp at h
    · cases t <;> simp [Tag.category] at h <;> simp [Tag.allowsChild] at allowed
    · simp [Tag.allows] at h

/-- What a node of a canonical document may carry. -/
structure Tag.IsPlain (t : Tag) (e : Extra) : Prop where
  unannotated : t.isUnannotated = true
  unmarked : e.inherited = false
  anonymous : t.isElement = false → e.id = none
  full : t ≠ .text ""

mutual

def Node.textsApart : Node Tag → Bool
  | ⟨_, _, cs⟩ => Forest.textsApart cs

/-- Whether no two neighbouring nodes of a forest are texts, at any level. -/
def Forest.textsApart : Forest Tag → Bool
  | [] => true
  | n :: rest =>
    (!n.data.isText || rest.head?.all (fun m => !m.data.isText)) && n.textsApart &&
      Forest.textsApart rest

end

theorem extra_eq_of_isPlain {t : Tag} {e : Extra} (h : t.IsPlain e) (element : t.isElement = false) :
    e = {} := by
  obtain ⟨id, inherited⟩ := e
  have anonymous : id = none := h.anonymous element
  have unmarked : inherited = false := h.unmarked
  rw [anonymous, unmarked]

/-- A forest without faults, whose nodes are plain and whose texts are apart, is written. -/
theorem isWritable_of_grammarFault? {cs : Forest Tag} {s : Setting} {depth : Nat}
    (h : Forest.grammarFault? (some s) depth cs = none)
    (plain : ∀ x ∈ Forest.preorder cs, x.1.IsPlain x.2) (apart : Forest.textsApart cs = true) :
    if s.parent = .conditional then Forest.AreWritableBranches s.context.isRunning cs
    else Forest.IsWritable s.context.isRunning cs := by
  induction cs using Forest.induction generalizing s depth with
  | nil => split <;> trivial
  | cons t e cs rest hcs hrest =>
    obtain ⟨fault, inside, others⟩ := grammarFault?_cons h
    have allowed := (Tag.fault?_none fault).2 s rfl
    simp only [Forest.preorder, Node.preorder, List.cons_append, List.mem_cons, List.mem_append,
      forall_eq_or_imp] at plain
    obtain ⟨plainNode, plain⟩ := plain
    simp only [Forest.textsApart, Node.textsApart, Bool.and_eq_true, Bool.or_eq_true,
      Bool.not_eq_true'] at apart
    obtain ⟨⟨apartText, apartInside⟩, apartOthers⟩ := apart
    have apartText : t.isText = true → rest.head?.all (fun m => !m.data.isText) = true := fun h =>
      apartText.resolve_left (by simp [h])
    have hcs := hcs inside (fun x hx => plain x (.inl hx)) apartInside
    have hrest := hrest others (fun x hx => plain x (.inr hx)) apartOthers
    rcases Tag.allowsChild_cases allowed with ⟨conditional, branch⟩ | ⟨plainParent, notBranch, allows⟩
    · rw [if_pos conditional] at hrest ⊢
      have notElement : t.isElement = false := by
        cases t <;> first | rfl | simp [Tag.category] at branch
      have parent : (Setting.below (some s) t) = ⟨t, s.context⟩ := by
        cases t <;> first | rfl | simp [Tag.category] at branch
      rw [parent, if_neg (by rintro rfl; simp [Tag.category] at branch)] at hcs
      refine ⟨?_, extra_eq_of_isPlain plainNode notElement, hcs, hrest⟩
      have := plainNode.unannotated
      cases t <;> first | rfl | exact this | simp [Tag.category] at branch
    · rw [if_neg plainParent] at hrest ⊢
      refine ⟨?_, apartText, hrest⟩
      have runs := Setting.isRunning_below allowed notBranch
      rw [runs] at hcs
      cases text : t.isText with
      | true =>
        obtain ⟨value, rfl⟩ := Tag.eq_text_of_isText text
        have running : s.context.isRunning = true := by
          rcases allows with h | h
          · simp [Tag.category] at h
          · exact Tag.isRunning_of_allows_text h
        exact ⟨running, extra_eq_of_isPlain plainNode rfl, children_of_text inside,
          fun h => plainNode.full (by rw [h])⟩
      | false =>
        by_cases conditional : t = .conditional
        · subst conditional
          exact ⟨plainNode.unmarked, hcs⟩
        · have parent : (Setting.below (some s) t).parent = t := rfl
          rw [parent, if_neg conditional] at hcs
          exact Node.isWritable_of_plain conditional text notBranch
            ⟨plainNode.unannotated, plainNode.unmarked, hcs⟩

end WorldMarkup
