import WorldMarkup.Proofs.World.WellFormed
import WorldMarkup.Form.Standardize

/-!
Content without edits, once the wrappers of inherited content are dissolved. Every node fits the
nearest tag above it that is no part of a conditional. Main statements: the content of accepted
documents fits, and so does every path of it.
-/

set_option autoImplicit false
set_option relaxedAutoImplicit false

namespace WorldMarkup

/-- Whether the tag may stand below the context; without a context it stands at the top. -/
def Tag.standsIn (context : Option Tag) (t : Tag) : Bool :=
  t.category != .edit && t != .inherited &&
    match context, t with
    | none, .entity _ | none, .conditional | none, .imported _ | none, .exported => true
    | none, _ => false
    | some c, t => c.allows t

mutual

/-- A node stands where it may, and so does all below it. A conditional holds branches, and what
they hold stands in the context of the conditional. -/
def Node.Fits (context : Option Tag) : Node Tag → Prop
  | ⟨t, _, cs⟩ =>
    t.standsIn context = true ∧
      if t = .conditional then cs ≠ [] ∧ Forest.AreBranches context cs
      else Forest.Fits (some t) cs

/-- Every node stands where it may. -/
def Forest.Fits (context : Option Tag) : Forest Tag → Prop
  | [] => True
  | n :: rest => n.Fits context ∧ Forest.Fits context rest

/-- Every node is a branch, and what it holds fits. -/
def Forest.AreBranches (context : Option Tag) : Forest Tag → Prop
  | [] => True
  | ⟨t, _, cs⟩ :: rest =>
    t.category = .branch ∧ Forest.Fits context cs ∧ Forest.AreBranches context rest

end

/-- No node is an edit. -/
def Forest.IsEditFree (t : Forest Tag) : Prop :=
  ∀ x ∈ Forest.preorder t, x.1 ≠ .remove ∧ x.1 ≠ .replace

instance (t : Forest Tag) : Decidable (Forest.IsEditFree t) :=
  inferInstanceAs (Decidable (∀ x ∈ Forest.preorder t, x.1 ≠ .remove ∧ x.1 ≠ .replace))

theorem Forest.isEditFree_cons {t : Tag} {e : Extra} {cs rest : Forest Tag} :
    Forest.IsEditFree (⟨t, e, cs⟩ :: rest) ↔
      (t ≠ .remove ∧ t ≠ .replace) ∧ Forest.IsEditFree cs ∧ Forest.IsEditFree rest := by
  simp only [Forest.IsEditFree, Forest.preorder, Node.preorder, List.cons_append,
    List.forall_mem_cons, List.forall_mem_append]

theorem Forest.fits_append {context : Option Tag} {t u : Forest Tag} :
    Forest.Fits context (t ++ u) ↔ Forest.Fits context t ∧ Forest.Fits context u := by
  induction t with
  | nil => simp [Forest.Fits]
  | cons n t ih => simp [Forest.Fits, ih, and_assoc]

theorem Forest.Fits.mono {c c' : Option Tag} {t : Forest Tag}
    (hc : ∀ x : Tag, x.standsIn c = true → x.standsIn c' = true) :
    (Forest.Fits c t → Forest.Fits c' t) ∧
      (Forest.AreBranches c t → Forest.AreBranches c' t) := by
  induction t using Forest.induction with
  | nil => exact ⟨fun _ => trivial, fun _ => trivial⟩
  | cons t e cs rest hcs hrest =>
    refine ⟨fun h => ?_, fun h => ⟨h.1, hcs.1 h.2.1, hrest.2 h.2.2⟩⟩
    obtain ⟨⟨hst, hbelow⟩, hr⟩ := h
    refine ⟨⟨hc t hst, ?_⟩, hrest.1 hr⟩
    split at hbelow
    · rename_i ht
      rw [if_pos ht]
      exact ⟨hbelow.1, hcs.2 hbelow.2⟩
    · rename_i ht
      rw [if_neg ht]
      exact hbelow

theorem Tag.allows_of_allowsChild {parent context t : Tag}
    (h : parent.allowsChild context t = true) (hc : parent ≠ .conditional)
    (hr : parent ≠ .replace) : context.allows t = true := by
  rcases Tag.allowsChild_cases h with ⟨h1, -⟩ | ⟨-, -, h2 | h2⟩
  · exact absurd h1 hc
  · cases t <;> simp [Tag.category] at h2 <;> cases parent <;>
      simp_all [Tag.allowsChild]
  · exact h2

theorem Tag.isTransparent_of_allows {context t : Tag} (h : context.allows t = true)
    (hc : t ≠ .conditional) (hremove : t ≠ .remove) (hreplace : t ≠ .replace)
    (inherited : t ≠ .inherited) : t.isTransparent = false ∧ t.standsIn (some context) = true := by
  cases t <;> simp_all [Tag.isTransparent, Tag.standsIn, Tag.category] <;> cases context <;>
    simp_all [Tag.allows, Tag.inEntity, Tag.isInlineContent, Tag.entity?, Tag.isText, Tag.text?]

theorem Forest.faultAt?_append {isWrapper : Tag → Bool} {depth : Nat} {t u : Forest Tag}
    (h : Forest.faultAt? isWrapper depth (t ++ u) = none) :
    Forest.faultAt? isWrapper depth t = none ∧ Forest.faultAt? isWrapper depth u = none := by
  induction t with
  | nil => exact ⟨rfl, h⟩
  | cons n t ih =>
    simp only [List.cons_append, Forest.faultAt?, Option.or_eq_none_iff] at h ⊢
    exact ⟨⟨h.1, (ih h.2).1⟩, (ih h.2).2⟩

theorem Node.fault?_none {depth : Nat} {t : Tag} {e : Extra} {cs : Forest Tag}
    (h : Node.fault? Tag.isWrapper depth ⟨t, e, cs⟩ = none) :
    (t.isWrapper = true → cs ≠ []) ∧ Forest.faultAt? Tag.isWrapper (depth + 1) cs = none := by
  unfold Node.fault? at h
  split at h
  · simp at h
  · cases cs with
    | nil =>
      refine ⟨fun hw => ?_, rfl⟩
      simp [hw] at h
    | cons n cs => exact ⟨fun _ => by simp, by simpa using h⟩

/-- Accepted content fits once the wrappers of inherited content are dissolved. -/
theorem fits_liftInherited {t : Forest Tag} (free : Forest.IsEditFree t) {above : Setting}
    {depth depth' : Nat} (h : Forest.grammarFault? (some above) depth t = none) (b : Bool)
    (hw : Forest.faultAt? Tag.isWrapper depth' (Forest.liftInherited b t) = none)
    (hr : above.parent ≠ .replace) :
    (above.parent = .conditional →
      Forest.AreBranches (some above.context) (Forest.liftInherited b t)) ∧
    (above.parent ≠ .conditional →
      Forest.Fits (some above.context) (Forest.liftInherited b t)) := by
  induction t using Forest.induction generalizing above depth depth' b with
  | nil => exact ⟨fun _ => trivial, fun _ => trivial⟩
  | cons t e cs rest hcs hrest =>
    obtain ⟨⟨hremove, hreplace⟩, freeBelow, freeBeside⟩ := Forest.isEditFree_cons.1 free
    obtain ⟨fault, inside, others⟩ := grammarFault?_cons h
    have allowed := (Tag.fault?_none fault).2 above rfl
    rw [Forest.liftInherited] at hw ⊢
    obtain ⟨hw, hwRest⟩ := Forest.faultAt?_append hw
    have beside := hrest freeBeside others b hwRest hr
    by_cases inherited : t = .inherited
    · subst inherited
      rw [Node.liftInherited, if_pos rfl] at hw ⊢
      have below := (hcs freeBelow inside true hw (by simp [Setting.below])).2
        (by simp [Setting.below])
      refine ⟨fun hc => ?_, fun hc => Forest.fits_append.2 ⟨below, beside.2 hc⟩⟩
      simp [hc, Tag.allowsChild, Tag.category] at allowed
    · rw [Node.liftInherited, if_neg inherited] at hw ⊢
      simp only [Forest.faultAt?, Option.or_none] at hw
      obtain ⟨nonempty, hw⟩ := Node.fault?_none hw
      have below := hcs freeBelow inside (b || e.inherited) hw
        (by simpa [Setting.below] using hreplace)
      refine ⟨fun hc => ?_, fun hc => ?_⟩
      · rcases Tag.allowsChild_cases allowed with ⟨-, hbranch⟩ | ⟨hn, -⟩
        · refine ⟨hbranch, ?_, beside.1 hc⟩
          have hnot : t ≠ .conditional := by
            rintro rfl
            simp [Tag.category] at hbranch
          have htransparent : t.isTransparent = true := by
            cases t <;> simp [Tag.category] at hbranch <;> rfl
          simpa [Setting.below, htransparent] using below.2 (by simpa [Setting.below] using hnot)
        · exact absurd hc hn
      · have hallows := Tag.allows_of_allowsChild allowed hc hr
        by_cases ht : t = .conditional
        · subst ht
          refine ⟨⟨?_, ?_⟩, beside.2 hc⟩
          · simp [Tag.standsIn, Tag.category, hallows]
          · rw [if_pos rfl]
            refine ⟨nonempty rfl, ?_⟩
            simpa [Setting.below, Tag.isTransparent] using below.1 (by simp [Setting.below])
        · obtain ⟨opaqueTag, stands⟩ :=
            Tag.isTransparent_of_allows hallows ht hremove hreplace inherited
          refine ⟨⟨stands, ?_⟩, beside.2 hc⟩
          rw [if_neg ht]
          simpa [Setting.below, opaqueTag] using below.2 (by simpa [Setting.below] using ht)

theorem Forest.fits_flatMap {β : Type} {c : Option Tag} {F : β → Forest Tag} {l : List β}
    (h : ∀ x ∈ l, Forest.Fits c (F x)) : Forest.Fits c (l.flatMap F) := by
  induction l with
  | nil => trivial
  | cons x l ih =>
    rw [List.flatMap_cons, Forest.fits_append]
    exact ⟨h x (by simp), ih (fun y hy => h y (by simp [hy]))⟩

theorem Forest.faultAt?_flatMap {β : Type} {depth : Nat} {F : β → Forest Tag} {l : List β}
    (h : Forest.faultAt? Tag.isWrapper depth (l.flatMap F) = none) (x : β) (hx : x ∈ l) :
    Forest.faultAt? Tag.isWrapper depth (F x) = none := by
  induction l with
  | nil => simp at hx
  | cons y l ih =>
    rw [List.flatMap_cons] at h
    obtain ⟨hy, hl⟩ := Forest.faultAt?_append h
    rcases List.mem_cons.1 hx with rfl | hx
    · exact hy
    · exact ih hl hx

theorem Forest.grammarFault?_of_mem {above : Option Setting} {depth : Nat} {t : Forest Tag}
    (h : Forest.grammarFault? above depth t = none) {n : Node Tag} (hn : n ∈ t) :
    n.grammarFault? above depth = none := by
  induction t with
  | nil => simp at hn
  | cons m t ih =>
    simp only [Forest.grammarFault?, Option.or_eq_none_iff] at h
    rcases List.mem_cons.1 hn with rfl | hn
    · exact h.1
    · exact ih h.2 hn

theorem Forest.isEditFree_of_mem {t : Forest Tag} (h : Forest.IsEditFree t) {n : Node Tag}
    (hn : n ∈ t) : Forest.IsEditFree [n] := by
  induction t with
  | nil => simp at hn
  | cons m t ih =>
    rcases m with ⟨d, e, cs⟩
    obtain ⟨hd, hcs, ht⟩ := Forest.isEditFree_cons.1 h
    rcases List.mem_cons.1 hn with rfl | hn
    · exact Forest.isEditFree_cons.2 ⟨hd, hcs, by simp [Forest.IsEditFree, Forest.preorder]⟩
    · exact ih ht hn

theorem Forest.documentFault?_none {t : Forest Tag} (h : Forest.documentFault? t = none) :
    (∀ n ∈ t, n.data.isContainer = true) ∧ Forest.grammarFault? none 0 t = none := by
  unfold Forest.documentFault? at h
  split at h
  · simp at h
  · rename_i hfind
    refine ⟨fun n hn => ?_, h⟩
    simpa using List.find?_eq_none.1 hfind n (by simpa using hn)

open Standardize in
/-- The content of accepted documents without edits fits. -/
theorem fits_combined {inputs : List (Forest Tag)}
    (accepted : ∀ t ∈ inputs, Forest.documentFault? t = none)
    (free : ∀ t ∈ inputs, Forest.IsEditFree t)
    (faultless : Forest.fault? Tag.isWrapper (combined inputs) = none) :
    Forest.Fits none (combined inputs) := by
  refine Forest.fits_flatMap (fun t ht => Forest.fits_flatMap (fun n hn => ?_))
  obtain ⟨roots, grammar⟩ := Forest.documentFault?_none (accepted t ht)
  have wrapped := Forest.faultAt?_flatMap (Forest.faultAt?_flatMap faultless t ht) n hn
  have root := roots n hn
  have gnode := Forest.grammarFault?_of_mem grammar hn
  have freeNode := Forest.isEditFree_of_mem (free t ht) hn
  rcases n with ⟨d, e, cs⟩
  have freeBelow := (Forest.isEditFree_cons.1 freeNode).2.1
  have inside : Forest.grammarFault? (some (Setting.below none d)) 1 cs = none := by
    simp only [Node.grammarFault?, Option.or_eq_none_iff] at gnode
    exact gnode.2
  cases d with
  | asset key =>
    have fits := (fits_liftInherited freeBelow inside false wrapped (by simp [Setting.below])).2
      (by simp [Setting.below])
    refine (Forest.Fits.mono ?_).1 fits
    intro x hx
    simp only [Setting.below, Tag.standsIn, Bool.and_eq_true] at hx ⊢
    refine ⟨hx.1, ?_⟩
    cases x <;> simp_all [Tag.allows]
  | entity entity =>
    have hlift : rootContent ⟨.entity entity, e, cs⟩ =
        [⟨.entity entity, { e with inherited := e.inherited },
          Forest.liftInherited e.inherited cs⟩] := by
      simp [rootContent, Node.liftInherited]
    rw [hlift] at wrapped ⊢
    simp only [Forest.faultAt?, Option.or_none] at wrapped
    obtain ⟨-, wrapped⟩ := Node.fault?_none wrapped
    have fits := (fits_liftInherited freeBelow inside e.inherited wrapped
      (by simp [Setting.below])).2 (by simp [Setting.below])
    refine ⟨⟨by simp [Tag.standsIn, Tag.category], ?_⟩, trivial⟩
    simpa [Setting.below] using fits
  | _ => simp [Tag.isContainer] at root

/-! ### Paths -/

mutual

/-- Each step of a path stands where it may, and every conditional goes on to a branch. -/
def Path.Fits (context : Option Tag) : Path Tag → Prop
  | [] => True
  | s :: rest =>
    s.data.standsIn context = true ∧
      if s.data = .conditional then Path.StartsInBranch context rest
      else Path.Fits (some s.data) rest

/-- The path starts with a branch; what follows stands in the context of its conditional. -/
def Path.StartsInBranch (context : Option Tag) : Path Tag → Prop
  | [] => False
  | b :: rest => b.data.category = .branch ∧ Path.Fits context rest

end

/-- The paths of fitting content fit. -/
theorem Path.fits_of_mem {t : Forest Tag} {context : Option Tag} {first : Nat} :
    (Forest.Fits context t → ∀ p ∈ Forest.pathsFrom first t, Path.Fits context p) ∧
    (Forest.AreBranches context t →
      ∀ p ∈ Forest.pathsFrom first t, Path.StartsInBranch context p) := by
  induction t using Forest.induction generalizing context first with
  | nil => simp [Forest.pathsFrom]
  | cons t e cs rest hcs hrest =>
    simp only [Forest.pathsFrom, Node.paths, List.mem_append]
    refine ⟨?_, ?_⟩
    · rintro ⟨⟨stands, below⟩, beside⟩ p (hp | hp)
      · split at hp
        · rename_i hleaf
          obtain rfl := List.mem_singleton.1 hp
          refine ⟨stands, ?_⟩
          split at below
          · exact absurd (List.isEmpty_iff.1 hleaf) below.1
          · rename_i ht
            rw [if_neg ht]
            trivial
        · obtain ⟨q, hq, rfl⟩ := List.mem_map.1 hp
          refine ⟨stands, ?_⟩
          split at below
          · rename_i ht
            rw [if_pos ht]
            exact hcs.2 below.2 q hq
          · rename_i ht
            rw [if_neg ht]
            exact hcs.1 below q hq
      · exact hrest.1 beside p hp
    · rintro ⟨branch, below, beside⟩ p (hp | hp)
      · split at hp
        · obtain rfl := List.mem_singleton.1 hp
          exact ⟨branch, trivial⟩
        · obtain ⟨q, hq, rfl⟩ := List.mem_map.1 hp
          exact ⟨branch, hcs.1 below q hq⟩
      · exact hrest.2 beside p hp

end WorldMarkup
