import WorldMarkup.Proofs.Form.Tidying

/-!
Components with all that belongs to them. What a component holds has a property that putting
content together keeps: to be tidy, or to be local, free of inherited content. Main statements: a
component that comes of lifted content has the kind and the key it was looked for under, its
fields are those of the kind in declared order, each below a node of its own, and what it holds is
tidy and local; laying one component over another keeps all this.
-/

set_option autoImplicit false
set_option relaxedAutoImplicit false

namespace WorldMarkup

/-! ### Local content -/

/-- No wrapper of inherited content, and no mark of it. -/
def Forest.IsLocal (t : Forest Tag) : Prop :=
  ∀ x ∈ Forest.preorder t, x.1 ≠ .inherited ∧ x.2.inherited = false

theorem Forest.isLocal_cons {d : Tag} {e : Extra} {cs rest : Forest Tag} :
    Forest.IsLocal (⟨d, e, cs⟩ :: rest) ↔
      (d ≠ .inherited ∧ e.inherited = false) ∧ Forest.IsLocal cs ∧ Forest.IsLocal rest := by
  simp only [Forest.IsLocal, Forest.preorder, Node.preorder, List.cons_append,
    List.forall_mem_cons, List.forall_mem_append]

theorem Forest.isLocal_append {t u : Forest Tag} :
    Forest.IsLocal (t ++ u) ↔ Forest.IsLocal t ∧ Forest.IsLocal u := by
  simp only [Forest.IsLocal, Forest.preorder_append, List.forall_mem_append]

theorem Forest.isLocal_nil : Forest.IsLocal [] := by
  simp [Forest.IsLocal, Forest.preorder]

theorem Forest.IsTidy.isLocal_stripInherited {t : Forest Tag} (h : Forest.IsTidy t) :
    Forest.IsLocal (Forest.stripInherited t) := by
  induction t using Forest.induction with
  | nil => exact Forest.isLocal_nil
  | cons d e cs rest hcs hrest =>
    obtain ⟨own, beside⟩ := Forest.isTidy_cons.1 h
    obtain ⟨lifted, -, below⟩ := Node.isTidy_mk.1 own
    exact Forest.isLocal_cons.2 ⟨⟨lifted, rfl⟩, hcs below, hrest beside⟩

theorem Forest.isLocal_joinTextAfter {t : Forest Tag} (h : Forest.IsLocal t)
    (held : Option (Node Tag)) (hheld : Forest.IsLocal held.toList) :
    Forest.IsLocal (Forest.joinTextAfter held t) := by
  induction t using Forest.induction generalizing held with
  | nil => rwa [Forest.joinTextAfter_nil]
  | cons d e cs rest hcs hrest =>
    obtain ⟨own, below, beside⟩ := Forest.isLocal_cons.1 h
    have inside : Forest.IsLocal (Forest.joinTextAfter none cs) := hcs below none Forest.isLocal_nil
    have next : Forest.IsLocal [⟨d, e, Forest.joinTextAfter none cs⟩] :=
      Forest.isLocal_cons.2 ⟨own, inside, Forest.isLocal_nil⟩
    cases text : d.isText with
    | false =>
      rw [Forest.joinTextAfter_cons text]
      exact Forest.isLocal_append.2 ⟨hheld, hrest beside _ next⟩
    | true =>
      obtain ⟨value, rfl⟩ := Tag.eq_text_of_isText text
      unfold Forest.joinTextAfter
      split
      · exact hrest beside held hheld
      · split
        · apply hrest beside
          obtain ⟨first, rest⟩ := Forest.isLocal_cons.1 hheld
          exact Forest.isLocal_cons.2 ⟨⟨by simp, first.2⟩, rest⟩
        · exact Forest.isLocal_append.2 ⟨hheld, hrest beside _ next⟩

theorem Forest.isLocal_joinText {t : Forest Tag} (h : Forest.IsLocal t) :
    Forest.IsLocal (Forest.joinText t) :=
  Forest.isLocal_joinTextAfter h none Forest.isLocal_nil

/-- A property of content that putting content together keeps. -/
structure Forest.Gathers (P : Forest Tag → Prop) : Prop where
  nil : P []
  shell : ∀ f, P [.leaf (.field f)]
  append : ∀ {t u}, P t → P u → P (t ++ u)
  children : ∀ {n}, P [n] → P n.children
  below : ∀ {f e cs cs'}, P [⟨.field f, e, cs⟩] → P cs' → P [⟨.field f, e, cs'⟩]
  joined : ∀ {t}, P t → P (Forest.joinText t)

namespace Component

/-- A component of the key: its tag is the entity of its kind, its fields are those of the kind
in declared order, each below a node of its own, and what it holds has the property. -/
structure WellFormed (P : Forest Tag → Prop) (key : String) (c : Component) : Prop where
  key_eq : c.key = key
  tag : ∃ e, c.tag = .entity e ∧ e.kind = c.kind ∧ e.key = key ∧ e.source = none
  kinds : c.fields.map ComponentField.kind = c.kind.fields
  roots : ∀ f ∈ c.fields, f.node.data = .field f.kind
  fields : ∀ f ∈ c.fields, P [f.node]
  items : P c.items

variable {P Q : Forest Tag → Prop} {key : String} {c : Component}

theorem WellFormed.mono (h : c.WellFormed P key) (imp : ∀ t, P t → Q t) : c.WellFormed Q key where
  key_eq := h.key_eq
  tag := h.tag
  kinds := h.kinds
  roots := h.roots
  fields f hf := imp _ (h.fields f hf)
  items := imp _ h.items

theorem WellFormed.annotate (h : c.WellFormed P key) (extra : Extra)
    (origin : Option ImportOrigin) : WellFormed P key { c with extra, origin } where
  key_eq := h.key_eq
  tag := h.tag
  kinds := h.kinds
  roots := h.roots
  fields := h.fields
  items := h.items

theorem wellFormed_ofEntity (hP : Forest.Gathers P) (e : Entity) :
    (ofEntity e).WellFormed P e.key where
  key_eq := rfl
  tag := ⟨e.withoutSource, rfl, by simp [ofEntity], by simp, by simp⟩
  kinds := by simp [ofEntity, ComponentField.shell, Function.comp_def]
  roots := by
    intro f hf
    obtain ⟨k, -, rfl⟩ := List.mem_map.1 hf
    rfl
  fields := by
    intro f hf
    obtain ⟨k, -, rfl⟩ := List.mem_map.1 hf
    exact hP.shell k
  items := hP.nil

theorem updateField?_split {fields : List ComponentField} {kind : FieldKind}
    (h : kind ∈ fields.map ComponentField.kind) (g : ComponentField → ComponentField) :
    ∃ before x after, fields = before ++ x :: after ∧ x.kind = kind ∧
      updateField? kind g fields = some (before ++ g x :: after) := by
  induction fields with
  | nil => simp at h
  | cons x rest ih =>
    rw [updateField?]
    by_cases hx : x.kind = kind
    · exact ⟨[], x, rest, rfl, hx, by rw [if_pos hx]; rfl⟩
    · have hrest : kind ∈ rest.map ComponentField.kind := by
        rcases List.mem_cons.1 h with h | h
        · exact absurd h.symm hx
        · exact h
      obtain ⟨before, y, after, rfl, hy, hput⟩ := ih hrest
      exact ⟨x :: before, y, after, rfl, hy, by rw [if_neg hx, hput]; rfl⟩

theorem addField_of_declared {fields : List ComponentField} {f : ComponentField}
    (known : f.kind ∈ fields.map ComponentField.kind) :
    (addField fields f).map ComponentField.kind = fields.map ComponentField.kind ∧
      ∀ y ∈ addField fields f, y ∈ fields ∨ ∃ x ∈ fields, y = x.extend f.node.children := by
  obtain ⟨before, x, after, rfl, -, hput⟩ := updateField?_split known (·.extend f.node.children)
  have added : addField (before ++ x :: after) f = before ++ x.extend f.node.children :: after := by
    rw [addField, hput]
    rfl
  rw [added]
  refine ⟨by simp [ComponentField.extend], ?_⟩
  intro y hy
  rcases List.mem_append.1 hy with hy | hy
  · exact .inl (by simp [hy])
  · rcases List.mem_cons.1 hy with rfl | hy
    · exact .inr ⟨x, by simp, rfl⟩
    · exact .inl (by simp [hy])

theorem WellFormed.addField (hP : Forest.Gathers P) (h : c.WellFormed P key) {f : ComponentField}
    (declared : f.kind ∈ c.kind.fields) (content : P f.node.children) :
    WellFormed P key { c with fields := Component.addField c.fields f } := by
  have known : f.kind ∈ c.fields.map ComponentField.kind := by
    rw [h.kinds]
    exact declared
  obtain ⟨kinds, added⟩ := addField_of_declared known
  constructor
  · exact h.key_eq
  · exact h.tag
  · exact kinds.trans h.kinds
  · intro y hy
    rcases added y hy with hy | ⟨x, hx, rfl⟩
    · exact h.roots y hy
    · exact h.roots x hx
  · intro y hy
    rcases added y hy with hy | ⟨x, hx, rfl⟩
    · exact h.fields y hy
    · have root := h.roots x hx
      have field := h.fields x hx
      rcases x with ⟨k, d, e, cs⟩
      obtain rfl : d = .field k := root
      exact hP.below field (hP.append (hP.children field) content)
  · exact h.items

theorem WellFormed.addItems (hP : Forest.Gathers P) (h : c.WellFormed P key) {t : Forest Tag}
    (content : P t) : WellFormed P key { c with items := c.items ++ t } where
  key_eq := h.key_eq
  tag := h.tag
  kinds := h.kinds
  roots := h.roots
  fields := h.fields
  items := hP.append h.items content

theorem WellFormed.place (hP : Forest.Gathers P) (h : c.WellFormed P key) {child : Node Tag}
    (content : P [child]) : (Standardize.place c child).WellFormed P key := by
  unfold Standardize.place
  split
  · rename_i f hf
    have declared : c.kind.hasField f = true := by
      obtain ⟨-, hhas⟩ := Option.filter_eq_some_iff.1 hf
      exact hhas
    exact h.addField hP (List.contains_iff_mem.1 declared) (hP.children content)
  · exact h.addItems hP content

theorem WellFormed.placeAll (hP : Forest.Gathers P) (h : c.WellFormed P key)
    {children : Forest Tag} (content : ∀ n ∈ children, P [n]) :
    (children.foldl Standardize.place c).WellFormed P key := by
  induction children generalizing c with
  | nil => exact h
  | cons n rest ih =>
    exact ih (h.place hP (content n (by simp))) (fun m hm => content m (by simp [hm]))

/-! ### Laying one component over another -/

theorem WellFormed.addFields (hP : Forest.Gathers P) (h : c.WellFormed P key)
    {fields : List ComponentField} (declared : ∀ f ∈ fields, f.kind ∈ c.kind.fields)
    (content : ∀ f ∈ fields, P f.node.children) :
    WellFormed P key { c with fields := fields.foldl Component.addField c.fields } := by
  induction fields generalizing c with
  | nil => exact h
  | cons f rest ih =>
    exact ih (h.addField hP (declared f (by simp)) (content f (by simp)))
      (fun g hg => declared g (by simp [hg])) (fun g hg => content g (by simp [hg]))

theorem WellFormed.joinText (hP : Forest.Gathers P) (h : c.WellFormed P key) :
    WellFormed P key { c with fields := c.fields.map ComponentField.joinText } where
  key_eq := h.key_eq
  tag := h.tag
  kinds := by
    rw [← h.kinds, List.map_map]
    rfl
  roots := by
    intro f hf
    obtain ⟨g, hg, rfl⟩ := List.mem_map.1 hf
    exact h.roots g hg
  fields := by
    intro f hf
    obtain ⟨g, hg, rfl⟩ := List.mem_map.1 hf
    have root := h.roots g hg
    have field := h.fields g hg
    rcases g with ⟨k, d, e, cs⟩
    obtain rfl : d = .field k := root
    exact hP.below field (hP.joined (hP.children field))
  items := h.items

theorem WellFormed.absorb (hP : Forest.Gathers P) {later : Component} (h : c.WellFormed P key)
    (hlater : later.WellFormed P key) (kind : c.kind = later.kind) :
    (c.absorb later).WellFormed P key := by
  have declared : ∀ f ∈ later.fields, f.kind ∈ c.kind.fields := by
    intro f hf
    rw [kind, ← hlater.kinds]
    exact List.mem_map_of_mem hf
  have content : ∀ f ∈ later.fields, P f.node.children :=
    fun f hf => hP.children (hlater.fields f hf)
  have laid := ((h.addFields hP declared content).joinText hP).addItems hP hlater.items
  constructor
  · exact h.key_eq
  · obtain ⟨e, tag, own, rest⟩ := hlater.tag
    exact ⟨e, tag, by rw [own, ← kind]; rfl, rest⟩
  · exact laid.kinds
  · exact laid.roots
  · exact laid.fields
  · exact laid.items

end Component

/-! ### Settling -/

namespace Forest

theorem gathers_isTidy : Gathers IsTidy where
  nil := isTidy_nil
  shell f := isTidy_cons.2 ⟨Node.isTidy_mk.2 ⟨by simp, fun _ => rfl, isTidy_nil⟩, isTidy_nil⟩
  append ht hu := isTidy_append.2 ⟨ht, hu⟩
  children h := (isTidy_cons.1 h).1.children
  below := by
    rintro f e cs cs' h content
    exact isTidy_cons.2
      ⟨Node.isTidy_mk.2 ⟨by simp, by simp [Tag.isText, Tag.text?], content⟩, isTidy_nil⟩
  joined := isTidy_joinText

theorem gathers_isLocal : Gathers IsLocal where
  nil := isLocal_nil
  shell f := isLocal_cons.2 ⟨⟨by simp, rfl⟩, isLocal_nil, isLocal_nil⟩
  append ht hu := isLocal_append.2 ⟨ht, hu⟩
  children h := by
    rename_i n
    cases n
    exact (isLocal_cons.1 h).2.1
  below h content := isLocal_cons.2 ⟨(isLocal_cons.1 h).1, content, isLocal_nil⟩
  joined := isLocal_joinText

theorem Gathers.and {P Q : Forest Tag → Prop} (hP : Gathers P) (hQ : Gathers Q) :
    Gathers (fun t => P t ∧ Q t) where
  nil := ⟨hP.nil, hQ.nil⟩
  shell f := ⟨hP.shell f, hQ.shell f⟩
  append ht hu := ⟨hP.append ht.1 hu.1, hQ.append ht.2 hu.2⟩
  children h := ⟨hP.children h.1, hQ.children h.2⟩
  below h content := ⟨hP.below h.1 content.1, hQ.below h.2 content.2⟩
  joined h := ⟨hP.joined h.1, hQ.joined h.2⟩

end Forest

theorem Except.forall₂_mapM {ε β γ : Type} {F : β → Except ε γ} {l : List β} {out : List γ}
    (h : l.mapM F = .ok out) : List.Forall₂ (fun x y => F x = .ok y) l out := by
  induction l generalizing out with
  | nil =>
    obtain rfl := Except.ok.inj h
    exact .nil
  | cons x l ih =>
    rw [List.mapM_cons] at h
    obtain ⟨y, hy, h⟩ := Except.bind_eq_ok.1 h
    obtain ⟨ys, hys, h⟩ := Except.bind_eq_ok.1 h
    obtain rfl := Except.ok.inj h
    exact .cons hy (ih hys)

theorem Except.exists_of_mem_mapM {ε β γ : Type} {F : β → Except ε γ} {l : List β} {out : List γ}
    (h : l.mapM F = .ok out) {y : γ} (hy : y ∈ out) : ∃ x ∈ l, F x = .ok y := by
  have pairs := Except.forall₂_mapM h
  clear h
  induction pairs with
  | nil => simp at hy
  | cons own _ ih =>
    rcases List.mem_cons.1 hy with rfl | hy
    · exact ⟨_, by simp, own⟩
    · obtain ⟨x, hx, own⟩ := ih hy
      exact ⟨x, by simp [hx], own⟩

/-- Tidy content without marks. -/
def Forest.IsSettled (t : Forest Tag) : Prop := Forest.IsTidy t ∧ Forest.IsLocal t

namespace Component

theorem settleField_eq_ok {f g : ComponentField} (root : f.node.data = .field f.kind)
    (h : Standardize.settleField f = .ok g) :
    ∃ cs, Forest.applyEdits [f.node] = .ok [⟨.field f.kind, f.node.extra, cs⟩] ∧
      g = ⟨f.kind, Node.stripInherited ⟨.field f.kind, f.node.extra, Forest.joinText cs⟩⟩ := by
  have isEdit : Edit.isEdit f.node = false := by simp [Edit.isEdit, root, Tag.category]
  rw [Standardize.settleField] at h
  obtain ⟨resolved, hresolved, h⟩ := Except.bind_eq_ok.1 h
  obtain ⟨cs, rfl⟩ := Forest.applyEdits_singleton isEdit hresolved
  rcases f with ⟨k, d, e, cs'⟩
  obtain rfl : d = .field k := root
  have joined : Forest.joinText [⟨.field k, e, cs⟩] = [⟨.field k, e, Forest.joinText cs⟩] := by
    rw [Forest.joinText, Forest.joinTextAfter_cons rfl, Forest.joinTextAfter_nil]
    rfl
  simp only [joined] at h
  exact ⟨cs, hresolved, (Except.ok.inj h).symm⟩

theorem settleField_spec {f g : ComponentField} (root : f.node.data = .field f.kind)
    (tidy : Forest.IsTidy [f.node]) (h : Standardize.settleField f = .ok g) :
    g.kind = f.kind ∧ g.node.data = .field f.kind ∧ Forest.IsSettled [g.node] := by
  obtain ⟨cs, resolved, rfl⟩ := settleField_eq_ok root h
  have content := (Forest.isTidy_cons.1 (Forest.isTidy_applyEdits tidy resolved)).1.children
  have joined : Forest.IsTidy [⟨.field f.kind, f.node.extra, Forest.joinText cs⟩] :=
    Forest.gathers_isTidy.below (Forest.isTidy_applyEdits tidy resolved)
      (Forest.isTidy_joinText content)
  exact ⟨rfl, rfl, Forest.isTidy_stripInherited joined, joined.isLocal_stripInherited⟩

theorem settleFields_spec {fields out : List ComponentField}
    (roots : ∀ f ∈ fields, f.node.data = .field f.kind)
    (tidy : ∀ f ∈ fields, Forest.IsTidy [f.node])
    (h : List.Forall₂ (fun f g => Standardize.settleField f = .ok g) fields out) :
    out.map ComponentField.kind = fields.map ComponentField.kind ∧
      ∀ g ∈ out, g.node.data = .field g.kind ∧ Forest.IsSettled [g.node] := by
  induction h with
  | nil => simp
  | @cons f g fields out hfg _ ih =>
    obtain ⟨kind, root, content⟩ := settleField_spec (roots f (by simp)) (tidy f (by simp)) hfg
    obtain ⟨kinds, rest⟩ :=
      ih (fun x hx => roots x (by simp [hx])) (fun x hx => tidy x (by simp [hx]))
    refine ⟨by simp [kind, kinds], List.forall_mem_cons.2 ⟨⟨?_, content⟩, rest⟩⟩
    rw [root, kind]

theorem WellFormed.settle {key : String} {c out : Component}
    (hc : c.WellFormed Forest.IsTidy key) (h : Standardize.settle c = .ok out) :
    out.WellFormed Forest.IsSettled key := by
  rw [Standardize.settle] at h
  obtain ⟨fields, hfields, h⟩ := Except.bind_eq_ok.1 h
  obtain ⟨items, hitems, h⟩ := Except.bind_eq_ok.1 h
  obtain rfl := Except.ok.inj h
  obtain ⟨kinds, settled⟩ := settleFields_spec hc.roots hc.fields (Except.forall₂_mapM hfields)
  have tidyItems := Forest.isTidy_joinText (Forest.isTidy_applyEdits hc.items hitems)
  constructor
  · exact hc.key_eq
  · exact hc.tag
  · rw [kinds]
    exact hc.kinds
  · exact fun g hg => (settled g hg).1
  · exact fun g hg => (settled g hg).2
  · exact ⟨Forest.isTidy_stripInherited tidyItems, tidyItems.isLocal_stripInherited⟩

end Component

open Standardize in
/-- What the component of a key comes of: the first entity in the tree that grows from what is seen
of the content, whose id it bears, and the children of the entity, placed and settled. -/
theorem componentOf_eq_some {content : List (Path Tag)} {kind : EntityKind} {key : String}
    {c : Component} (h : componentOf content kind key = .ok (some c)) :
    content.filterMap (Ownership.ownedPath? kind key) ≠ [] ∧
      ∃ grown e extra children,
        growComponent kind key (content.filterMap (Ownership.ownedPath? kind key)) = .ok grown ∧
        (∃ root, (List.filter (fun n : Node Tag => n.data.isEntityOf kind key) grown).head? =
            some root ∧ root.data = .entity e ∧ extra = { id := root.extra.id }) ∧
        e.kind = kind ∧ e.key = key ∧
        (∀ n ∈ children, ∃ m ∈ grown, m.data.isEntityOf kind key = true ∧ n ∈ m.children) ∧
        settle (List.foldl place { Component.ofEntity e with extra } children) = .ok c := by
  rw [componentOf] at h
  split at h
  · simp [pure, Except.pure] at h
  · rename_i seen
    refine ⟨by simpa using seen, ?_⟩
    obtain ⟨grown, hgrown, hroot⟩ := Except.bind_eq_ok.1 h
    clear h
    split at hroot
    · simp [throw, throwThe, MonadExceptOf.throw] at hroot
    · rename_i root others hroots
      have found : ∀ n ∈ root :: others, n ∈ grown ∧ n.data.isEntityOf kind key = true := by
        intro n hn
        rw [← hroots] at hn
        exact List.mem_filter.1 hn
      obtain ⟨e, htag, hkind, hkey⟩ := Growth.exists_of_isEntityOf (found root (by simp)).2
      rw [htag, Component.ofTag] at hroot
      simp only at hroot
      obtain ⟨settled, hsettled, hsome⟩ := Except.bind_eq_ok.1 hroot
      obtain rfl : settled = c := by simpa [pure, Except.pure] using hsome
      refine ⟨grown, e, _, _, hgrown, ⟨root, by rw [hroots]; rfl, htag, rfl⟩, hkind, hkey, ?_,
        hsettled⟩
      intro n hn
      have below : ∃ m ∈ root :: others, n ∈ m.children := by
        rcases List.mem_append.1 hn with hn | hn
        · exact ⟨root, by simp, hn⟩
        · obtain ⟨m, hm, hn⟩ := List.mem_flatMap.1 hn
          exact ⟨m, by simp [hm], hn⟩
      obtain ⟨m, hm, hn⟩ := below
      exact ⟨m, (found m hm).1, (found m hm).2, hn⟩

open Standardize in
theorem wellFormed_componentOf {content : List (Path Tag)} (lifted : Address.AreLifted content)
    {kind : EntityKind} {key : String} {c : Component}
    (h : componentOf content kind key = .ok (some c)) :
    c.kind = kind ∧ c.WellFormed Forest.IsSettled key := by
  obtain ⟨-, grown, e, extra, children, hgrown, -, rfl, rfl, below, settled⟩ :=
    componentOf_eq_some h
  have tidy : Forest.IsTidy grown :=
    Address.isTidy_grown (a := ⟨e.kind, e.key, .name⟩) lifted hgrown
  have content : ∀ n ∈ children, Forest.IsTidy [n] := by
    intro n hn
    obtain ⟨m, hm, -, hn⟩ := below n hn
    have hm := Forest.isTidy_iff.1 (Forest.isTidy_iff.1 tidy m hm).children n hn
    exact Forest.isTidy_cons.2 ⟨hm, Forest.isTidy_nil⟩
  have shell := (Component.wellFormed_ofEntity Forest.gathers_isTidy e).annotate extra none
  refine ⟨?_, (shell.placeAll Forest.gathers_isTidy content).settle settled⟩
  obtain ⟨_, _, rfl⟩ := Component.exists_settled settled
  rfl

end WorldMarkup
