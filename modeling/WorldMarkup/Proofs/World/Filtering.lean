import Mathlib
import WorldMarkup.Proofs.Form.Scopes
import WorldMarkup.Proofs.Tree.Refolding

/-!
Filtering a document. A document is accepted exactly when every node stands where the grammar has
it and none stands too deep; where a node stands is told by its path, and a filter keeps paths or
the beginnings of paths. Main statement: a filtered document is accepted again, and can be taken
apart again.
-/

set_option autoImplicit false
set_option relaxedAutoImplicit false

namespace WorldMarkup

/-! ### Accepted documents told by scopes -/

/-- Whether the grammar lets the tag stand in the scope. -/
def Scope.Accepts : Scope → Tag → Prop
  | .content context, t => context.allows t = true
  | .branches _, t => t.category = .branch
  | .halves _, t => t.category = .editBranch

/-- Every node of a document stands where the grammar has it, and no property it must have is
missing. At the top stand the containers, and each opens the scope of its content. -/
def Tag.standsAccepted : Standing (Option Scope) where
  allows
    | none, t => t.isContainer = true ∧ t.missing? = none
    | some scope, t => scope.Accepts t ∧ t.missing? = none
  below
    | none, t => some (.content t.frame)
    | some scope, t => some (scope.below t)

theorem Tag.respects_standsAccepted : Tag.standsAccepted.Respects := by
  apply Standing.respects_of_eq
  intro scope a b kin
  cases scope with
  | none => exact congrArg (fun t => some (Scope.content t)) kin.frame_eq
  | some scope => exact congrArg some (Scope.below_eq_of_kin kin)

theorem Setting.accepts_scope (s : Setting) (t : Tag) :
    s.scope.Accepts t ↔ s.parent.allowsChild s.context t = true := by
  unfold scope
  split
  · rename_i parent
    simp [Scope.Accepts, Tag.allowsChild, parent]
  · rename_i parent
    simp [Scope.Accepts, Tag.allowsChild, parent]
  · rename_i notConditional notReplace
    rw [Scope.Accepts, Tag.allows_frame]
    constructor
    · intro allowed
      obtain ⟨branch, half⟩ := Tag.category_of_allows allowed
      cases hparent : s.parent <;> cases t <;> simp_all [Tag.allowsChild, Tag.category]
    · intro allowed
      exact Tag.allows_of_allowsChild allowed notConditional notReplace

def Setting.scope? (above : Option Setting) : Option Scope := above.map Setting.scope

theorem Setting.scope?_below {above : Option Setting} {t : Tag}
    (root : above = none → t.isContainer = true) :
    Setting.scope? (some (Setting.below above t)) =
      Tag.standsAccepted.below (Setting.scope? above) t := by
  cases above with
  | some s => exact congrArg some (Setting.scope_below s t)
  | none =>
    have container := root rfl
    cases t <;> first | rfl | simp [Tag.isContainer] at container

/-- A node has no fault of its own exactly when it stands where it may and not too deep. At the
top its kind is checked apart. -/
theorem Tag.fault?_eq_none_iff {above : Option Setting} {depth : Nat} {t : Tag}
    (root : above = none → t.isContainer = true) :
    t.fault? above depth = none ↔
      depth < maxDepth ∧ Tag.standsAccepted.allows (Setting.scope? above) t := by
  unfold fault?
  by_cases deep : maxDepth ≤ depth
  · have beyond : ¬ depth < maxDepth := by omega
    simp [deep, beyond]
  · have within : depth < maxDepth := by omega
    rw [if_neg deep, Option.or_eq_none_iff]
    cases above with
    | none =>
      show _ ↔ depth < maxDepth ∧ t.isContainer = true ∧ t.missing? = none
      simp [within, root rfl]
    | some s =>
      show _ ↔ depth < maxDepth ∧ s.scope.Accepts t ∧ t.missing? = none
      rw [Setting.accepts_scope]
      cases allowed : s.parent.allowsChild s.context t <;> simp [allowed, within]

theorem Forest.grammarFault?_eq_none_iff {t : Forest Tag} {above : Option Setting} {depth : Nat}
    (roots : above = none → ∀ n ∈ t, n.data.isContainer = true) :
    Forest.grammarFault? above depth t = none ↔
      Forest.Stands Tag.standsAccepted (Setting.scope? above) t ∧
        ∀ x ∈ Forest.placed depth t, x.1 < maxDepth := by
  induction t using Forest.induction generalizing above depth with
  | nil => simp [Forest.grammarFault?, Forest.Stands, Forest.placed]
  | cons t e cs rest hcs hrest =>
    have root : above = none → t.isContainer = true := by
      intro top
      exact roots top ⟨t, e, cs⟩ (by simp)
    have others : above = none → ∀ n ∈ rest, n.data.isContainer = true := by
      intro top n hn
      exact roots top n (by simp [hn])
    have inside : Forest.grammarFault? (some (Setting.below above t)) (depth + 1) cs = none ↔
        Forest.Stands Tag.standsAccepted (Setting.scope? (some (Setting.below above t))) cs ∧
          ∀ x ∈ Forest.placed (depth + 1) cs, x.1 < maxDepth := hcs (by simp)
    rw [Setting.scope?_below root] at inside
    simp only [Forest.grammarFault?, Node.grammarFault?, Option.or_eq_none_iff,
      Tag.fault?_eq_none_iff root, inside, hrest others, Forest.Stands, Node.Stands,
      Forest.placed_cons, List.forall_mem_cons, List.forall_mem_append]
    tauto

/-- A document is accepted exactly when every node stands where it may and none too deep. -/
theorem Forest.documentFault?_eq_none_iff {t : Forest Tag} :
    Forest.documentFault? t = none ↔
      Forest.Stands Tag.standsAccepted none t ∧ ∀ x ∈ Forest.placed 0 t, x.1 < maxDepth := by
  constructor
  · intro h
    obtain ⟨roots, faultless⟩ := Forest.documentFault?_none h
    exact (Forest.grammarFault?_eq_none_iff (fun _ => roots)).1 faultless
  · rintro ⟨stands, shallow⟩
    have roots : ∀ n ∈ t, n.data.isContainer = true := by
      intro n hn
      rcases n with ⟨d, e, cs⟩
      exact (Forest.stands_iff.1 stands _ hn).1.1
    have containers : t.reverse.find? (fun n => !n.data.isContainer) = none := by
      rw [List.find?_eq_none]
      intro n hn
      simp [roots n (List.mem_reverse.1 hn)]
    unfold Forest.documentFault?
    rw [containers]
    exact (Forest.grammarFault?_eq_none_iff (fun _ => roots)).2 ⟨stands, shallow⟩

/-! ### Filtered documents -/

/-- A document filtered by a query is accepted again, and can be taken apart again. -/
theorem WorldOutline.documentFault?_filter {t : Forest Tag} {o : WorldOutline}
    (accepted : Forest.documentFault? t = none) (taken : WorldOutline.ofForest t = .ok o)
    (q : Query Tag) :
    Forest.documentFault? (o.filter q).forest = none ∧
      ∃ o' : WorldOutline, WorldOutline.ofForest (o.filter q).forest = .ok o' := by
  have agree : Path.Agree (o.filter q).paths := ((IsReworked.taken taken).filter q).agree
  have lineage := ((Outline.IsSieved.taken taken).filter q).isLineage
  obtain ⟨-, rfl⟩ := Outline.ofForest_eq_ok.1 taken
  obtain ⟨stands, -⟩ := Forest.documentFault?_eq_none_iff.1 accepted
  -- a kept path begins a path of the document, and so stands as that one does
  have kept : ∀ p ∈ (Outline.filter ⟨worldRules, Forest.paths t⟩ q).paths,
      Path.Stands Tag.standsAccepted none p := by
    intro p hp
    obtain ⟨longer, hlonger, more, rfl⟩ := Path.exists_longer_of_mem hp
    exact (Path.stands_append.1 (stands.pathsFrom hlonger)).1
  have grown : Forest.Stands Tag.standsAccepted none
      (Outline.filter ⟨worldRules, Forest.paths t⟩ q).forest := by
    show Forest.Stands _ none (Growth.forest (Growth.insertAll (Growth.regrowth []) _ []))
    exact Growth.stands_insertAll Tag.respects_standsAccepted agree kept
  have faultless : Forest.fault? Tag.isWrapper
      (Outline.filter ⟨worldRules, Forest.paths t⟩ q).forest = none :=
    Forest.faultless_ofPaths agree (Outline.faultless_of_ofPaths lineage.ofPaths)
  have shallow := fun x hx => (Forest.faultAt?_eq_none.1 faultless x hx).1
  exact ⟨Forest.documentFault?_eq_none_iff.2 ⟨grown, shallow⟩,
    _, Outline.ofForest_eq_ok.2 ⟨faultless, rfl⟩⟩

/-- Of the house with its hall only the way out by night is asked for. -/
theorem WorldOutline.documentFault?_filter_houseByNight :
    let house : Forest Tag := [.branch (.asset "house") hallWithDoor]
    let o : WorldOutline := ⟨worldRules, Forest.paths house⟩
    let night := o.filter (.exactly (.exit "out" "yard"))
    (Forest.documentFault? house = none ∧ WorldOutline.ofForest house = .ok o) ∧
      Forest.documentFault? night.forest = none ∧
      ∃ o' : WorldOutline, WorldOutline.ofForest night.forest = .ok o' := by
  intro house o night
  have accepted : Forest.documentFault? house = none := by cbv
  have taken : WorldOutline.ofForest house = .ok o :=
    Outline.ofForest_eq_ok.2 ⟨by decide, rfl⟩
  exact ⟨⟨accepted, taken⟩, documentFault?_filter accepted taken _⟩

end WorldMarkup
