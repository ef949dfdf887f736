import WorldMarkup.Proofs.Form.Conformance
import WorldMarkup.Proofs.Form.Steady

/-!
Content without edits, told by the grammar of documents: there are no edits, and links hold texts
only. Main statement: what stands so and lawfully has no fault but its depth, and what assets hold
is less deep than they are.
-/

set_option autoImplicit false
set_option relaxedAutoImplicit false

namespace WorldMarkup

open Standardize

/-! ### Content without edits -/

namespace Tag

/-- No edit, and in a link nothing but a text. -/
def StandsPlainly (above : Option Tag) (t : Tag) : Prop :=
  t.isEditing = false ∧ ∀ a ∈ above, a.frame = .link "" → t.isText = true

theorem respects_standsPlainly : (Standing.under StandsPlainly).Respects where
  below _ := rfl
  allows := by
    intro scope a b t kin allowed
    obtain ⟨free, texts⟩ : StandsPlainly (some a) t := allowed
    refine ⟨free, fun c hc link => texts a rfl ?_⟩
    obtain rfl := Option.some.inj hc
    rw [kin.frame_eq, link]

theorem frame_eq_link {t : Tag} (h : t.frame = .link "") : ∃ target, t = .link target := by
  cases t <;> simp_all [frame, EntityKind.frame]

theorem plain_of_isTransparent {t : Tag} (h : t.isTransparent = true) :
    t.isText = false ∧ t.frame ≠ .link "" := by
  cases t <;> simp [isTransparent] at h <;> simp [isText, text?, frame]

theorem isEditing_of_branch {t : Tag} (h : t.category = .branch) :
    t.isEditing = false ∧ t.isTransparent = true := by
  cases t <;> simp [category] at h <;> exact ⟨rfl, rfl⟩

theorem isEditing_of_standsIn {context : Option Tag} {t : Tag} (h : t.standsIn context = true) :
    t.isEditing = false := by
  rcases context with _ | c
  · cases t <;> simp_all [standsIn, isEditing]
  · cases t <;> first
      | rfl
      | (cases c <;> simp_all [standsIn, category, allows, inEntity, isInlineContent, isText, text?,
          entity?])

end Tag

namespace Forest

theorem stands_plainly_of_fits {t : Forest Tag} : ∀ {context above : Option Tag},
    ((∀ a ∈ above, a.frame = .link "" → context = some a) → Forest.Fits context t →
      Forest.Stands (.under Tag.StandsPlainly) above t) ∧
    ((∀ a ∈ above, a.frame ≠ .link "") → Forest.AreBranches context t →
      Forest.Stands (.under Tag.StandsPlainly) above t) := by
  induction t using Forest.induction with
  | nil => exact ⟨fun _ _ => trivial, fun _ _ => trivial⟩
  | cons d e cs rest hcs hrest =>
    intro context above
    refine ⟨fun linked h => ?_, fun apart h => ?_⟩
    · obtain ⟨⟨own, below⟩, beside⟩ := h
      refine ⟨⟨⟨Tag.isEditing_of_standsIn own, fun a ha link => ?_⟩, ?_⟩, hrest.1 linked beside⟩
      · obtain rfl := linked a ha link
        obtain ⟨target, rfl⟩ := Tag.frame_eq_link link
        simp only [Tag.standsIn, Bool.and_eq_true] at own
        exact own.2
      · split at below
        · rename_i conditional
          subst conditional
          exact hcs.2 (by simp [Tag.frame]) below.2
        · exact hcs.1 (by simp) below
    · obtain ⟨branch, below, beside⟩ := h
      refine ⟨⟨⟨?_, fun a ha link => absurd link (apart a ha)⟩, ?_⟩, hrest.2 apart beside⟩
      · exact (Tag.isEditing_of_branch branch).1
      · refine hcs.1 (fun a ha link => ?_) below
        obtain rfl := Option.some.inj ha
        exact absurd link (Tag.plain_of_isTransparent (Tag.isEditing_of_branch branch).2).2

theorem isEditFree_of_stands_plainly {t : Forest Tag} : ∀ {above : Option Tag},
    Forest.Stands (.under Tag.StandsPlainly) above t → Forest.IsEditFree t := by
  induction t using Forest.induction with
  | nil => simp [Forest.IsEditFree, preorder]
  | cons d e cs rest hcs hrest =>
    intro above h
    obtain ⟨⟨own, below⟩, beside⟩ := h
    refine isEditFree_cons.2 ⟨?_, hcs below, hrest beside⟩
    have free := own.1
    constructor <;>
      · rintro rfl
        simp [Tag.isEditing] at free

end Forest

theorem Setting.allowsChild_of_admits_scope {s : Setting} {t : Tag} (h : s.scope.Admits t)
    (texts : s.context.frame = .link "" → t.isText = true) :
    s.parent.allowsChild s.context t = true := by
  unfold scope at h
  split at h
  · rename_i parent
    have branch : t.category = .branch := h
    simpa [Tag.allowsChild, parent] using branch
  · rename_i parent
    have half : t.category = .editBranch := h
    simpa [Tag.allowsChild, parent] using half
  · rename_i notConditional notReplace
    rcases h with allowed | ⟨⟨target, link⟩, rfl⟩
    · rw [Tag.allows_frame] at allowed
      obtain ⟨branch, half⟩ := Tag.category_of_allows allowed
      cases hparent : s.parent <;> cases t <;> simp_all [Tag.allowsChild, Tag.category]
    · have own : s.context.frame = .link "" := by
        cases hc : s.context <;> simp_all [Tag.frame, EntityKind.frame]
      simpa [Tag.isText, Tag.text?] using texts own

theorem grammarFault?_of_stands {t : Forest Tag} : ∀ {s : Setting} {above : Option Tag}
    {depth : Nat}, Forest.Stands Tag.standsLawfully s.scope t →
    Forest.Stands (.under Tag.StandsPlainly) above t →
    (s.context.frame = .link "" → ∀ n ∈ t, n.data.isText = true) →
    depth + Forest.depth t ≤ maxDepth → Forest.grammarFault? (some s) depth t = none := by
  induction t using Forest.induction with
  | nil => simp [Forest.grammarFault?]
  | cons d e cs rest hcs hrest =>
    intro s above depth lawful plain texts low
    obtain ⟨⟨⟨admitted, named, -⟩, inside⟩, others⟩ := lawful
    obtain ⟨⟨own, below⟩, beside⟩ := plain
    rw [Forest.depth, Node.depth] at low
    have allowed := Setting.allowsChild_of_admits_scope admitted
      fun link => texts link _ List.mem_cons_self
    have fault : d.fault? (some s) depth = none := by
      have within : ¬ maxDepth ≤ depth := by omega
      simp [Tag.fault?, within, named, allowed]
    rw [Forest.grammarFault?, Node.grammarFault?, fault, Option.none_or, Option.or_eq_none_iff]
    refine ⟨hcs ?_ below (fun link n hn => ?_) (by omega),
      hrest others beside (fun link n hn => texts link n (by simp [hn])) (by omega)⟩
    · rw [Setting.scope_below]
      exact inside
    · have link : (if d.isTransparent then s.context else d).frame = .link "" := link
      split at link
      · rename_i passing
        have text : d.isText = true := texts link _ List.mem_cons_self
        simp [(Tag.plain_of_isTransparent passing).1] at text
      · have standing := Forest.stands_iff.1 below n hn
        rcases n with ⟨d', e', cs'⟩
        exact standing.1.2 d rfl link

/-! ### How deep content is -/

namespace Forest

variable {t : Forest Tag}

theorem depth_liftInherited (t : Forest Tag) :
    ∀ b, depth (Forest.liftInherited b t) ≤ depth t := by
  induction t using Forest.induction with
  | nil => exact fun _ => le_rfl
  | cons d e cs rest hcs hrest =>
    intro b
    have beside := depth_le_iff.1 (hrest b)
    rw [depth, Node.depth, Forest.liftInherited, Node.liftInherited]
    refine depth_le_iff.2 fun n hn => ?_
    rcases List.mem_append.1 hn with hn | hn
    · split at hn
      · have := depth_le_iff.1 (hcs true) n hn
        omega
      · obtain rfl := List.mem_singleton.1 hn
        have := hcs (b || e.inherited)
        rw [Node.depth]
        omega
    · have := beside n hn
      omega

theorem length_le_depth {p : Path Tag} : ∀ {first : Nat}, p ∈ Forest.pathsFrom first t →
    p.length ≤ depth t := by
  induction t using Forest.induction generalizing p with
  | nil => simp [Forest.pathsFrom]
  | cons d e cs rest hcs hrest =>
    intro first hp
    rw [Forest.pathsFrom, List.mem_append, paths_eq_rests] at hp
    rw [depth, Node.depth]
    rcases hp with hp | hp
    · obtain ⟨q, hq, rfl⟩ := List.mem_map.1 hp
      rw [rests] at hq
      split at hq
      · obtain rfl := List.mem_singleton.1 hq
        simp
      · have := hcs hq
        rw [List.length_cons]
        omega
    · have := hrest hp
      omega

end Forest

namespace Standardize

variable {inputs : List (Forest Tag)}

theorem depth_combined (accepted : ∀ t ∈ inputs, Forest.documentFault? t = none)
    (assets : ∀ t ∈ inputs, ∀ n ∈ t, ∃ key, n.data = .asset key) :
    1 + Forest.depth (combined inputs) ≤ maxDepth := by
  suffices Forest.depth (combined inputs) ≤ maxDepth - 1 by
    simp only [maxDepth] at this ⊢
    omega
  refine Forest.depth_le_iff.2 fun m hm => ?_
  obtain ⟨t, ht, hm⟩ := List.mem_flatMap.1 hm
  obtain ⟨n, hn, hm⟩ := List.mem_flatMap.1 hm
  obtain ⟨key, asset⟩ := assets t ht n hn
  have whole := depth_of_grammarFault? (Forest.documentFault?_none (accepted t ht)).2 (by simp)
  have own := Forest.depth_le_iff.1 (Nat.zero_add _ ▸ whole) n hn
  rcases n with ⟨d, e, cs⟩
  obtain rfl : d = .asset key := asset
  have inside := Forest.depth_le_iff.1 (Forest.depth_liftInherited cs false) m hm
  rw [Node.depth] at own
  omega

theorem faultless_declarations {docs : List (Path Tag)} (agree : Path.Agree docs)
    (short : ∀ p ∈ docs, p.length < maxDepth)
    (ended : ∀ p ∈ docs, ∀ s, p.getLast? = some s → s.data.isWrapper = false)
    {declared : Forest Tag} (h : declarations (docs.filterMap declarationPath?) = .ok declared) :
    Forest.faultAt? Tag.isWrapper 1 declared = none := by
  unfold declarations at h
  split at h
  · obtain rfl := Except.ok.inj h
    rfl
  · rw [Alignment.regrow_eq_ok h]
    have agree := agree_declarationPaths agree
    refine Growth.insertAll_keeps (P := fun t => Forest.faultAt? Tag.isWrapper 1 t = none) agree
      (fun q hq g hg => Growth.faultless_insert (fun s hs => ?_) hg ?_ ?_) rfl
    · exact agree.kin_label (List.mem_flatten.2 ⟨q, hq, hs⟩)
    · obtain ⟨above, s, below, hp, rfl, -⟩ := exists_of_mem_declarationPaths hq
      have := short _ hp
      rw [List.length_append] at this
      omega
    · obtain ⟨above, s, below, hp, rfl, -⟩ := exists_of_mem_declarationPaths hq
      intro x hx
      refine ended _ hp x ?_
      rwa [List.getLast?_append_of_ne_nil _ (by simp)]

theorem stands_plainly_declarations {docs : List (Path Tag)} (agree : Path.Agree docs)
    (stands : ∀ p ∈ docs, Path.Stands (.under Tag.StandsPlainly) none p) {declared : Forest Tag}
    (h : declarations (docs.filterMap declarationPath?) = .ok declared) :
    Forest.Stands (.under Tag.StandsPlainly) none declared := by
  refine stands_declarations Tag.respects_standsPlainly agree (fun q hq => ?_) h
  obtain ⟨above, s, below, hp, rfl, -⟩ := exists_of_mem_declarationPaths hq
  obtain ⟨own, inside⟩ := (Path.stands_append.1 (stands _ hp)).2
  exact ⟨⟨own.1, by simp⟩, inside⟩

end Standardize

end WorldMarkup
