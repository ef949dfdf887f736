import WorldMarkup.Proofs.Form.Fitting

/-!
From the tree of a component to its fields. Main statements: where there are no edits resolving
them changes nothing, and a settled field holds what stood in the nodes of the field, its texts
joined.
-/

set_option autoImplicit false
set_option relaxedAutoImplicit false

namespace WorldMarkup

namespace Edit

theorem isEditFree_children {t : Forest Tag} (h : Forest.IsEditFree t) {n : Node Tag}
    (hn : n ∈ t) : Forest.IsEditFree n.children ∧ isEdit n = false := by
  induction t using Forest.induction with
  | nil => simp at hn
  | cons t e cs rest _ hrest =>
    obtain ⟨⟨hremove, hreplace⟩, hbelow, hbeside⟩ := Forest.isEditFree_cons.1 h
    rcases List.mem_cons.1 hn with rfl | hn
    · refine ⟨hbelow, ?_⟩
      cases t <;> simp_all [isEdit, Tag.category]
    · exact hrest hbeside hn

theorem onChildren_eq {f : Forest Tag → Except FormError (Forest Tag)} {t u : Forest Tag}
    (hf : ∀ n ∈ t, ∀ v, f n.children = .ok v → v = n.children) (h : onChildren f t = .ok u) :
    u = t := by
  induction t generalizing u with
  | nil => exact (Except.ok.inj h).symm
  | cons n rest ih =>
    rw [onChildren] at h
    obtain ⟨later, hlater, h⟩ := Except.bind_eq_ok.1 h
    obtain ⟨children, hchildren, h⟩ := Except.bind_eq_ok.1 h
    rw [← Except.ok.inj h, ih (fun m hm => hf m (by simp [hm])) hlater,
      hf n (by simp) children hchildren]
    cases n
    rfl

theorem resolveWithin_eq {levels : Nat} {t u : Forest Tag} (free : Forest.IsEditFree t)
    (h : resolveWithin levels t = .ok u) : u = t := by
  induction levels generalizing t u with
  | zero => exact absurd h (by simp [resolveWithin])
  | succ levels ih =>
    rw [resolveWithin] at h
    obtain ⟨siblings, hsiblings, h⟩ := Except.bind_eq_ok.1 h
    have hnone : List.any t isEdit = false :=
      List.any_eq_false.2 (fun n hn => by simp [(isEditFree_children free hn).2])
    simp only [resolveSiblings, hnone, Bool.false_eq_true, if_false] at hsiblings
    obtain rfl := Except.ok.inj hsiblings
    exact onChildren_eq (fun n hn v hv => ih (isEditFree_children free hn).1 hv) h

end Edit

theorem Forest.applyEdits_eq {t u : Forest Tag} (free : Forest.IsEditFree t)
    (h : Forest.applyEdits t = .ok u) : u = t :=
  Edit.resolveWithin_eq free h

namespace ComponentField

def holding (f : FieldKind) (content : Forest Tag) : ComponentField :=
  ⟨f, .branch (.field f) content⟩

/-- What a field holds in the end: texts joined and marks of inherited content taken off. -/
def finish (content : Forest Tag) : Forest Tag :=
  Forest.stripInherited (Forest.joinText content)

theorem settleField_holding {f : FieldKind} {content : Forest Tag} {x : ComponentField}
    (free : Forest.IsEditFree content) (h : Standardize.settleField (holding f content) = .ok x) :
    x = holding f (finish content) := by
  have hfree : Forest.IsEditFree [(holding f content).node] := by
    refine Forest.isEditFree_cons.2 ⟨by simp, free, ?_⟩
    simp [Forest.IsEditFree, Forest.preorder]
  rw [Standardize.settleField] at h
  obtain ⟨resolved, hresolved, h⟩ := Except.bind_eq_ok.1 h
  obtain rfl := Forest.applyEdits_eq hfree hresolved
  rw [← Except.ok.inj h]
  rfl

end ComponentField

namespace Component

/-- The fields of the kind, each with its content. -/
def Holds (c : Component) (content : FieldKind → Forest Tag) : Prop :=
  c.fields = c.kind.fields.map (fun f => ComponentField.holding f (content f))

theorem holds_ofEntity (e : Entity) : (ofEntity e).Holds (fun _ => []) := rfl

theorem nodup_fields (k : EntityKind) : k.fields.Nodup := by
  rcases k with _ | _ | _ | ⟨_ | _ | _ | _ | _ | _ | _ | _ | _ | _⟩ <;> decide

theorem updateField?_map {fs : List FieldKind} (hfs : fs.Nodup) {g : FieldKind} (hg : g ∈ fs)
    (F : ComponentField → ComponentField) (content : FieldKind → Forest Tag) :
    updateField? g F (fs.map (fun f => ComponentField.holding f (content f))) =
      some (fs.map (fun f => if f = g then F (ComponentField.holding f (content f))
        else ComponentField.holding f (content f))) := by
  induction fs with
  | nil => simp at hg
  | cons f fs ih =>
    obtain ⟨hf, hfs⟩ := List.nodup_cons.1 hfs
    rw [List.map_cons, List.map_cons, updateField?]
    by_cases hfg : f = g
    · subst hfg
      have hkind : (ComponentField.holding f (content f)).kind = f := rfl
      rw [if_pos hkind, if_pos rfl]
      refine congrArg some (congrArg _ (List.map_congr_left (fun x hx => ?_)))
      have hne : x ≠ f := fun h => hf (h ▸ hx)
      rw [if_neg hne]
    · have hkind : (ComponentField.holding f (content f)).kind ≠ g := hfg
      have hmem : g ∈ fs := by
        rcases List.mem_cons.1 hg with h | h
        · exact absurd h.symm hfg
        · exact h
      rw [if_neg hkind, if_neg hfg, ih hfs hmem]
      rfl

variable {c : Component} {content : FieldKind → Forest Tag}

theorem Holds.congr {content' : FieldKind → Forest Tag} (h : c.Holds content)
    (heq : ∀ f, content f = content' f) : c.Holds content' := by
  rw [Holds, h]
  exact List.map_congr_left (fun f _ => by rw [heq])

theorem Holds.place (h : c.Holds content) (child : Node Tag) :
    (Standardize.place c child).Holds
      (fun f => content f ++ if child.data.field? = some f then child.children else []) := by
  rw [Standardize.place]
  rcases hg : child.data.field?.filter c.kind.hasField with _ | g
  · refine Eq.trans h (List.map_congr_left (fun f hf => ?_))
    have hnot : child.data.field? ≠ some f := by
      intro hf'
      have hhas : c.kind.hasField f = true := List.contains_iff_mem.2 hf
      simp [hf', hhas] at hg
    simp [hnot]
  · obtain ⟨hcg, hhas⟩ := Option.filter_eq_some_iff.1 hg
    have hmem : g ∈ c.kind.fields := List.contains_iff_mem.1 hhas
    have hput := updateField?_map (nodup_fields c.kind) hmem (·.extend child.children) content
    have hfields : addField c.fields ⟨g, child⟩ = c.kind.fields.map (fun f =>
        if f = g then (ComponentField.holding f (content f)).extend child.children
        else ComponentField.holding f (content f)) := by
      rw [addField, h]
      simp only [hput, Option.getD_some]
    refine Eq.trans hfields (List.map_congr_left (fun f _ => ?_))
    by_cases hf : f = g
    · subst hf
      simp only [if_true, hcg]
      rfl
    · have hne : some g ≠ some f := fun h => hf (Option.some.inj h).symm
      simp only [hf, if_false, hcg, if_neg hne, List.append_nil]

theorem exists_place (c : Component) (child : Node Tag) :
    ∃ fields items, Standardize.place c child = { c with fields, items } := by
  rw [Standardize.place]
  split <;> exact ⟨_, _, rfl⟩

theorem exists_settled {c d : Component} {children : Forest Tag}
    (h : Standardize.settle (children.foldl Standardize.place c) = .ok d) :
    ∃ fields items, d = { c with fields, items } := by
  induction children generalizing c with
  | nil =>
    rw [List.foldl_nil, Standardize.settle] at h
    obtain ⟨fields, -, h⟩ := Except.bind_eq_ok.1 h
    obtain ⟨items, -, h⟩ := Except.bind_eq_ok.1 h
    exact ⟨_, _, (Except.ok.inj h).symm⟩
  | cons n rest ih =>
    obtain ⟨fields, items, placed⟩ := exists_place c n
    obtain ⟨fields', items', all⟩ := ih h
    exact ⟨fields', items', by rw [all, placed]⟩

theorem Holds.foldl_place (h : c.Holds content) (children : Forest Tag) :
    (children.foldl Standardize.place c).Holds
      (fun f => content f ++ (List.filter (fun n : Node Tag => decide (n.data.field? = some f))
        children).flatMap Node.children) := by
  induction children generalizing c content with
  | nil => exact h.congr (fun f => by simp)
  | cons n children ih =>
    refine (ih (h.place n)).congr (fun f => ?_)
    by_cases hf : n.data.field? = some f <;> simp [hf]

theorem mapM_map_eq {β γ δ : Type} {l : List β} {make : β → γ} {F : γ → Except FormError δ}
    {out : List δ} {result : β → δ} (hF : ∀ x ∈ l, ∀ y, F (make x) = .ok y → y = result x)
    (h : (l.map make).mapM F = .ok out) : out = l.map result := by
  induction l generalizing out with
  | nil => simpa using (Except.ok.inj h).symm
  | cons x l ih =>
    rw [List.map_cons, List.mapM_cons] at h
    obtain ⟨y, hy, h⟩ := Except.bind_eq_ok.1 h
    obtain ⟨ys, hys, h⟩ := Except.bind_eq_ok.1 h
    rw [← Except.ok.inj h, hF x (by simp) y hy, ih (fun z hz => hF z (by simp [hz])) hys]
    rfl

theorem Holds.settle (h : c.Holds content) (free : ∀ f, Forest.IsEditFree (content f))
    {d : Component} (hd : Standardize.settle c = .ok d) :
    d.Holds (fun f => ComponentField.finish (content f)) := by
  rw [Standardize.settle] at hd
  obtain ⟨fields, hfields, hd⟩ := Except.bind_eq_ok.1 hd
  obtain ⟨items, -, hd⟩ := Except.bind_eq_ok.1 hd
  rw [← Except.ok.inj hd]
  rw [h] at hfields
  exact mapM_map_eq (fun f _ y hy => ComponentField.settleField_holding (free f) hy) hfields

end Component

namespace Forest

theorem isEditFree_of_fits {t : Forest Tag} {c : Option Tag} :
    (Forest.Fits c t → Forest.IsEditFree t) ∧ (Forest.AreBranches c t → Forest.IsEditFree t) := by
  induction t using Forest.induction generalizing c with
  | nil => simp [Forest.IsEditFree, Forest.preorder]
  | cons t e cs rest hcs hrest =>
    refine ⟨fun h => ?_, fun h => ?_⟩
    · obtain ⟨⟨hst, hbelow⟩, hbeside⟩ := h
      refine Forest.isEditFree_cons.2 ⟨?_, ?_, hrest.1 hbeside⟩
      · constructor <;>
          · rintro rfl
            simp [Tag.standsIn, Tag.category] at hst
      · split at hbelow
        · exact hcs.2 hbelow.2
        · exact hcs.1 hbelow
    · obtain ⟨hbranch, hbelow, hbeside⟩ := h
      refine Forest.isEditFree_cons.2 ⟨?_, hcs.1 hbelow, hrest.2 hbeside⟩
      constructor <;>
        · rintro rfl
          simp [Tag.category] at hbranch

end Forest

/-! ### Components -/

/-- What a field of a component holds in the end: the excerpt of the content, finished. -/
def Address.content (a : Address) (t : Forest Tag) : Forest Tag :=
  ComponentField.finish (a.excerpt .outside t)

theorem view_of_componentOf_none {docs : List (Path Tag)} {kind : EntityKind} {key : String}
    (h : Standardize.componentOf docs kind key = .ok none) :
    docs.filterMap (Ownership.ownedPath? kind key) = [] := by
  rw [Standardize.componentOf] at h
  by_cases hview : (docs.filterMap (Ownership.ownedPath? kind key)).isEmpty = true
  · exact List.isEmpty_iff.1 hview
  · rw [if_neg hview] at h
    obtain ⟨grown, -, h⟩ := Except.bind_eq_ok.1 h
    split at h
    · exact absurd h (by simp [throw, throwThe, MonadExceptOf.throw])
    · split at h
      · exact absurd h (by simp [throw, throwThe, MonadExceptOf.throw])
      · obtain ⟨d, -, h⟩ := Except.bind_eq_ok.1 h
        exact absurd (Except.ok.inj h) (by simp)

theorem content_of_componentOf_none {t : Forest Tag} (ht : Forest.Fits none t) {a : Address}
    (h : Standardize.componentOf (Address.contentPaths t) a.kind a.key = .ok none) :
    a.content t = [] := by
  rw [Address.content, a.excerpt_eq_nil ht (view_of_componentOf_none h)]
  rfl

/-- The component of a key holds the content of its fields. -/
theorem holds_of_componentOf_some {t : Forest Tag} (ht : Forest.Fits none t) {kind : EntityKind}
    {key : String} {c : Component}
    (h : Standardize.componentOf (Address.contentPaths t) kind key = .ok (some c)) :
    c.kind = kind ∧ c.key = key ∧ c.Holds (fun f => Address.content ⟨kind, key, f⟩ t) := by
  rw [Standardize.componentOf] at h
  by_cases hview :
      ((Address.contentPaths t).filterMap (Ownership.ownedPath? kind key)).isEmpty = true
  · rw [if_pos hview] at h
    exact absurd (Except.ok.inj h) (by simp)
  · rw [if_neg hview] at h
    obtain ⟨grown, hgrown, h⟩ := Except.bind_eq_ok.1 h
    have hexcerpt (f : FieldKind) := Address.grown_excerpt ⟨kind, key, f⟩ ht hgrown
    rcases hexcerpt .name with rfl | ⟨root, rfl, hroot, -⟩
    · exact absurd h (by simp [throw, throwThe, MonadExceptOf.throw])
    · have hfields (f : FieldKind) : (List.filter
          (fun n : Node Tag => decide (n.data.field? = some f)) root.children).flatMap
            Node.children = Address.excerpt ⟨kind, key, f⟩ .outside t := by
        rcases hexcerpt f with hnil | ⟨root', hroot', -, heq⟩
        · simp at hnil
        · obtain rfl : root = root' := by simpa using hroot'
          exact heq
      obtain ⟨e, he, hkind, hkey⟩ := Growth.exists_of_isEntityOf hroot
      have hone : List.filter (fun n : Node Tag => n.data.isEntityOf kind key) [root] = [root] := by
        simp [hroot]
      rw [hone] at h
      simp only [he, Component.ofTag, List.flatMap_nil, List.append_nil] at h
      obtain ⟨d, hd, h⟩ := Except.bind_eq_ok.1 h
      obtain rfl : d = c := Option.some.inj (Except.ok.inj h)
      have hshell : Component.Holds { Component.ofEntity e with extra := { id := root.extra.id } }
          (fun _ => []) := rfl
      have hplaced := hshell.foldl_place root.children
      have hfree (f : FieldKind) : Forest.IsEditFree ([] ++ (List.filter
          (fun n : Node Tag => decide (n.data.field? = some f)) root.children).flatMap
            Node.children) := by
        rw [hfields f, List.nil_append]
        exact Forest.isEditFree_of_fits.1 (Address.fits_excerpt_top _ ht)
      have hsettled := (hplaced.settle hfree hd).congr (fun f => by rw [hfields f])
      obtain ⟨_, _, rfl⟩ := Component.exists_settled hd
      exact ⟨hkind, hkey, hsettled⟩

end WorldMarkup
