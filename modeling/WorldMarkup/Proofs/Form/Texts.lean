import WorldMarkup.Proofs.Form.Grounds
import WorldMarkup.Proofs.Form.Joined
import WorldMarkup.Proofs.Form.Merging

/-!
The texts of a form. Components join the texts of what they take in, and no text stands outside of
their fields and links; declarations are grown without joining texts. Main statement: the document
that a form is written as has all its runs of text joined exactly when its declarations have.
-/

set_option autoImplicit false
set_option relaxedAutoImplicit false

namespace WorldMarkup

/-! ### Siblings without texts -/

namespace Forest

variable {t : Forest Tag}

theorem startsApart_stripInherited (t : Forest Tag) :
    StartsApart (stripInherited t) ↔ StartsApart t := by
  rcases t with _ | ⟨⟨d, e, cs⟩, rest⟩ <;> simp [StartsApart, stripInherited, Node.stripInherited]

theorem isJoined_stripInherited (t : Forest Tag) : IsJoined (stripInherited t) ↔ IsJoined t := by
  induction t using Forest.induction with
  | nil => rfl
  | cons d e cs rest hcs hrest =>
    have same : stripInherited (⟨d, e, cs⟩ :: rest) =
        ⟨d, { e with inherited := false }, stripInherited cs⟩ :: stripInherited rest := rfl
    rw [same, isJoined_cons, isJoined_cons, hrest, startsApart_stripInherited]
    exact and_congr_right fun _ => and_congr_right fun _ => and_congr_left fun _ => hcs

theorem isJoined_iff_of_apart (apart : ∀ n ∈ t, n.data.isText = false) :
    IsJoined t ↔ ∀ n ∈ t, IsJoined n.children := by
  induction t with
  | nil => simp [isJoined_nil]
  | cons n t ih =>
    obtain ⟨own, others⟩ := List.forall_mem_cons.1 apart
    have filled := Tag.ne_text_of_isText own ""
    rw [isJoined_cons, ih others, List.forall_mem_cons]
    simp [own, filled]

theorem apart_of_stands_parts (h : Forest.Stands Tag.standsOnGround .parts t) :
    ∀ n ∈ t, n.data.isText = false := by
  intro n hn
  have own := Forest.stands_iff.1 h n hn
  rcases n with ⟨d, e, cs⟩
  obtain ⟨⟨notInline, -⟩, -⟩ := own
  cases d <;> first | rfl | exact absurd rfl notInline

theorem IsDeclared.apart (h : IsDeclared t) : ∀ n ∈ t, n.data.isText = false := by
  intro n hn
  have own := Forest.stands_iff.1 h.stands n hn
  rcases n with ⟨d, e, cs⟩
  obtain ⟨⟨free, -⟩, -⟩ := own
  have unordered : d.category ∈ Category.unordered := free (by simp)
  cases d <;> first | rfl | simp [Tag.category, Category.unordered] at unordered

end Forest

/-! ### Components -/

namespace Component

/-- The texts of the component are joined, and none stands among its items. -/
structure IsJoined (c : Component) : Prop where
  fields : ∀ f ∈ c.fields, Forest.IsJoined f.node.children
  items : Forest.IsJoined c.items
  apart : ∀ n ∈ c.items, n.data.isText = false

variable {c d out : Component} {key : String} {P : Forest Tag → Prop}

theorem isJoined_ofEntity (e : Entity) : (ofEntity e).IsJoined where
  fields := by
    intro f hf
    obtain ⟨k, -, rfl⟩ := List.mem_map.1 hf
    exact Forest.isJoined_nil
  items := Forest.isJoined_nil
  apart := by simp [ofEntity]

theorem IsJoined.annotate (h : c.IsJoined) (extra : Extra) (origin : Option ImportOrigin) :
    IsJoined { c with extra, origin } :=
  ⟨h.fields, h.items, h.apart⟩

theorem mem_items_placeAll {children : Forest Tag} {n : Node Tag}
    (hn : n ∈ (children.foldl Standardize.place c).items) : n ∈ c.items ∨ n ∈ children := by
  induction children generalizing c with
  | nil => exact .inl hn
  | cons m rest ih =>
    rcases ih hn with placed | later
    · unfold Standardize.place at placed
      split at placed
      · exact .inl placed
      · rcases List.mem_append.1 placed with kept | new
        · exact .inl kept
        · exact .inr (by simp_all)
    · exact .inr (List.mem_cons_of_mem _ later)

theorem isJoined_settle (wf : c.WellFormed Forest.IsTidy key)
    (items : Forest.Stands Tag.standsOnGround .parts c.items)
    (done : Standardize.settle c = .ok out) : out.IsJoined := by
  rw [Standardize.settle] at done
  obtain ⟨fields, hfields, done⟩ := Except.bind_eq_ok.1 done
  obtain ⟨resolved, hresolved, done⟩ := Except.bind_eq_ok.1 done
  obtain rfl := Except.ok.inj done
  have editable := Tag.editable_standsOnGround
  constructor
  · intro g hg
    obtain ⟨f, hf, settled⟩ := Except.exists_of_mem_mapM hfields hg
    obtain ⟨cs, edited, rfl⟩ := settleField_eq_ok (wf.roots f hf) settled
    have tidy := Forest.isTidy_applyEdits (wf.fields f hf) edited
    have inside : Forest.IsTidy cs := (Forest.isTidy_cons.1 tidy).1.children
    exact (Forest.isJoined_stripInherited _).2 (Forest.isJoined_joinText inside.textsEnd)
  · have tidy := Forest.isTidy_applyEdits wf.items hresolved
    exact (Forest.isJoined_stripInherited _).2 (Forest.isJoined_joinText tidy.textsEnd)
  · have stands := ((items.applyEdits editable hresolved).joinText editable).stripInherited
    exact Forest.apart_of_stands_parts stands

theorem IsJoined.absorb (hc : c.IsJoined) (hd : d.IsJoined)
    (wf : c.WellFormed Forest.IsSettled key) (later : d.WellFormed Forest.IsSettled key)
    (kind : c.kind = d.kind) : (c.absorb d).IsJoined := by
  have apart : ∀ n ∈ c.items ++ d.items, n.data.isText = false :=
    List.forall_mem_append.2 ⟨hc.apart, hd.apart⟩
  refine ⟨?_, ?_, apart⟩
  · intro f hf
    rw [absorb_fields wf later kind, ← List.map_uncurry_zip_eq_zipWith] at hf
    obtain ⟨⟨g, g'⟩, pair, rfl⟩ := List.mem_map.1 hf
    obtain ⟨hg, hg'⟩ := List.of_mem_zip pair
    have tidy := Forest.isTidy_append.2 ⟨wf.fields_tidy g hg, later.fields_tidy g' hg'⟩
    exact Forest.isJoined_joinText tidy.textsEnd
  · show Forest.IsJoined (c.items ++ d.items)
    rw [Forest.isJoined_iff_of_apart apart]
    exact List.forall_mem_append.2
      ⟨fun n hn => hc.items.children hn, fun n hn => hd.items.children hn⟩

theorem IsJoined.apart_toNode (h : c.IsJoined) (wf : c.WellFormed P key) :
    ∀ n ∈ c.toNode.children, n.data.isText = false := by
  refine List.forall_mem_append.2 ⟨?_, h.apart⟩
  intro n hn
  obtain ⟨f, hf, rfl⟩ := List.mem_map.1 hn
  rw [wf.roots f (List.mem_filter.1 hf).1]
  rfl

theorem IsJoined.toNode (h : c.IsJoined) (wf : c.WellFormed P key) :
    Forest.IsJoined c.toNode.children := by
  rw [Forest.isJoined_iff_of_apart (h.apart_toNode wf)]
  refine List.forall_mem_append.2 ⟨?_, fun n hn => h.items.children hn⟩
  intro n hn
  obtain ⟨f, hf, rfl⟩ := List.mem_map.1 hn
  exact h.fields f (List.mem_filter.1 hf).1

end Component

/-! ### Documents -/

namespace Standardize

variable {content : List (Path Tag)}

theorem isJoined_componentOf (grounded : Address.AreGrounded content) {kind : EntityKind}
    {key : String} {c : Component} (h : componentOf content kind key = .ok (some c)) :
    c.IsJoined := by
  obtain ⟨-, grown, e, extra, children, hgrown, -, rfl, rfl, below, settled⟩ :=
    componentOf_eq_some h
  let a : Address := ⟨e.kind, e.key, .name⟩
  have tidy : Forest.IsTidy grown := Address.isTidy_grown (a := a) grounded.lifted hgrown
  have stands := Address.stands_onGround_grown (a := a) grounded hgrown
  have inside : ∀ n ∈ children, Forest.IsTidy [n] ∧ n.Stands Tag.standsOnGround .parts := by
    intro n hn
    obtain ⟨m, hm, target, hn⟩ := below n hn
    have tidy := (Forest.isTidy_iff.1 tidy m hm).children
    have stands := Forest.stands_iff.1 stands m hm
    rcases m with ⟨d, x, cs⟩
    obtain ⟨-, stands⟩ := stands
    rw [Address.below_target_ground (a := a) target] at stands
    exact ⟨Forest.isTidy_cons.2 ⟨Forest.isTidy_iff.1 tidy n hn, Forest.isTidy_nil⟩,
      Forest.stands_iff.1 stands n hn⟩
  have shell := (Component.wellFormed_ofEntity Forest.gathers_isTidy e).annotate extra none
  refine Component.isJoined_settle
    (shell.placeAll Forest.gathers_isTidy fun n hn => (inside n hn).1) ?_ settled
  rw [Forest.stands_iff]
  intro n hn
  rcases Component.mem_items_placeAll hn with shell | placed
  · simp [Component.ofEntity] at shell
  · exact (inside n placed).2

end Standardize

namespace Form

/-- The texts of all components are joined. -/
def IsJoined (f : Form) : Prop := ∀ k c, f.component? k = some c → c.IsJoined

variable {f g later out : Form}

open Standardize in
/-- The form of documents has the texts of its components joined. -/
theorem isJoined_standardize {inputs : List (Forest Tag)} (done : standardize inputs = .ok f) :
    f.IsJoined := by
  obtain ⟨accepted, -, key, kind, declared, index, -, -, once, -, known, added⟩ :=
    standardize_eq_ok done
  have grounded : Address.AreGrounded (Address.contentPaths (combined inputs)) :=
    ⟨((stands_combined accepted).areStanding 0).of_subset (fun p hp => (List.mem_filter.1 hp).1),
      fun p hp => (stands_onGround_combined accepted).pathsFrom (List.mem_filter.1 hp).1,
      fun p hp => by simpa using (List.mem_filter.1 hp).2⟩
  refine forall_component_addAll (once.kind_of_imported fun x hx => (known _).2 (.inr ⟨x, hx, rfl⟩))
    ?_ ?_ (by simp [component?]) added
  · intro kind key c origin made
    exact (isJoined_componentOf grounded made).annotate c.extra origin
  · intro x _ _
    exact (Component.isJoined_ofEntity x.entity).annotate _ (some x.origin)

theorem IsJoined.merge (hf : f.IsJoined) (hlater : later.IsJoined) (canonical : f.IsCanonical)
    (laid : later.IsCanonical) (done : f.merge later = .ok g) : g.IsJoined := by
  have merges := merges_of_merge laid.toIsTable done
  intro k w hw
  rw [merges.component?] at hw
  cases hc : f.component? k with
  | none =>
    rw [hc] at hw
    exact hlater k w (by simpa using hw)
  | some c =>
    cases hd : later.component? k with
    | none =>
      obtain rfl : c = w := by simpa [hc, hd] using hw
      exact hf k c hc
    | some d =>
      obtain rfl : c.absorb d = w := by simpa [hc, hd] using hw
      exact (hf k c hc).absorb (hlater k d hd) (canonical.component hc) (laid.component hd)
        (merges.agree k c d hc hd)

theorem IsMerged.isJoined (h : f.IsMerged) : f.IsJoined := by
  induction h with
  | documents done => exact isJoined_standardize done
  | merged first second done ih ih' => exact ih.merge ih' first.isCanonical second.isCanonical done

/-! ### The document that a form is written as -/

/-- The entity that a component of a form is written as, and what it holds. -/
theorem IsMerged.joined_component (h : f.IsMerged) {k : String} {c : Component}
    (found : f.component? k = some c) :
    c.toNode.data.isText = false ∧ (∀ n ∈ c.toNode.children, n.data.isText = false) ∧
      Forest.IsJoined c.toNode.children := by
  have wf := h.isCanonical.component found
  have joined := h.isJoined k c found
  obtain ⟨e, tag, -⟩ := wf.tag
  refine ⟨?_, joined.apart_toNode wf, joined.toNode wf⟩
  show c.tag.isText = false
  rw [tag]
  rfl

theorem IsMerged.isJoined_schema_asset (h : f.IsMerged) (kind : f.kind = .asset) :
    Forest.IsJoined f.schema ↔ Forest.IsJoined f.imports ∧ Forest.IsJoined f.exports := by
  have written : ∀ n ∈ (f.components.filter (fun c => !c.isElided)).map Component.toNode,
      n.data.isText = false ∧ Forest.IsJoined n.children := by
    intro n hn
    obtain ⟨c, hc, rfl⟩ := List.mem_map.1 hn
    obtain ⟨k, -, found⟩ := List.mem_filterMap.1 (List.mem_filter.1 hc).1
    obtain ⟨entity, -, joined⟩ := h.joined_component found
    exact ⟨entity, joined⟩
  have schema : f.schema = [.branch (.asset f.key) (f.imports ++
      (f.components.filter (fun c => !c.isElided)).map Component.toNode ++ f.exports)] := by
    rw [Form.schema, kind]
  have imports := h.isCanonical.imported.apart
  have exports := h.isCanonical.exported.apart
  have apart := List.forall_mem_append.2
    ⟨List.forall_mem_append.2 ⟨imports, fun n hn => (written n hn).1⟩, exports⟩
  rw [schema, Forest.isJoined_iff_of_apart (by simp [Node.branch, Tag.isText, Tag.text?]),
    List.forall_mem_singleton, Node.branch, Forest.isJoined_iff_of_apart apart,
    Forest.isJoined_iff_of_apart imports, Forest.isJoined_iff_of_apart exports,
    List.forall_mem_append, List.forall_mem_append]
  exact and_congr_left fun _ => and_iff_left fun n hn => (written n hn).2

theorem IsMerged.isJoined_schema_character (h : f.IsMerged) (kind : f.kind = .character) :
    Forest.IsJoined f.schema ↔ Forest.IsJoined f.imports := by
  obtain ⟨root, schema, entity, apart, joined⟩ : ∃ root : Node Tag,
      f.schema = [⟨root.data, root.extra, f.imports ++ root.children⟩] ∧
      root.data.isText = false ∧ (∀ n ∈ root.children, n.data.isText = false) ∧
      Forest.IsJoined root.children := by
    rw [Form.schema, kind]
    cases found : f.component? f.key with
    | some c => exact ⟨c.toNode, rfl, h.joined_component found⟩
    | none =>
      exact ⟨.leaf (Tag.character f.key), rfl, rfl, by simp [Node.leaf], Forest.isJoined_nil⟩
  have imports := h.isCanonical.imported.apart
  rw [schema, Forest.isJoined_iff_of_apart (by simpa using entity), List.forall_mem_singleton,
    Forest.isJoined_iff_of_apart (List.forall_mem_append.2 ⟨imports, apart⟩),
    Forest.isJoined_iff_of_apart imports, List.forall_mem_append]
  exact and_iff_left fun n hn => joined.children hn

/-- The texts that a form writes are joined in each of its components, and in the whole document
exactly when they are joined in the declarations that it writes. -/
theorem IsMerged.isJoined_schema_iff (h : f.IsMerged) :
    (∀ k c, f.component? k = some c → Forest.IsJoined [c.toNode]) ∧
      (Forest.IsJoined f.schema ↔
        Forest.IsJoined f.imports ∧ (f.kind = .asset → Forest.IsJoined f.exports)) := by
  constructor
  · intro k c found
    obtain ⟨entity, -, joined⟩ := h.joined_component found
    rw [Forest.isJoined_iff_of_apart (by simpa using entity)]
    simpa using joined
  · cases kind : f.kind with
    | asset => simpa using h.isJoined_schema_asset kind
    | character => simpa using h.isJoined_schema_character kind

/-- What one document says of a hall where it imports it, and what another says of it. -/
def importedHallSaying (first second : String) : List (Forest Tag) :=
  let saying (value : String) : Forest Tag :=
    [.branch (.asset "house")
      [.branch (.imported "castle")
        [.branch (.room "hall") [.branch (.field .description) [.leaf (.text value)]]]]]
  [saying first, saying second]

theorem IsMerged.isJoined_schema_iff_hallSaying :
    ∃ f, standardize (hallSaying "You see nobody.") = .ok f ∧ Forest.IsJoined f.schema ∧
      (∀ k c, f.component? k = some c → Forest.IsJoined [c.toNode]) := by
  have imports : (standardize (hallSaying "You see nobody.")).toOption.map
      (fun f => decide (Forest.IsJoined f.imports ∧ f.exports = [])) = some true := by
    cbv
  cases done : standardize (hallSaying "You see nobody.") with
  | error e => simp [done, Except.toOption] at imports
  | ok f =>
    obtain ⟨joined, none⟩ : Forest.IsJoined f.imports ∧ f.exports = [] := by
      simpa [done, Except.toOption] using imports
    obtain ⟨components, schema⟩ := IsMerged.isJoined_schema_iff (.documents done)
    exact ⟨f, rfl, schema.2 ⟨joined, fun _ => none ▸ Forest.isJoined_nil⟩, components⟩

/-- What two documents say of an imported entity where they import it stands side by side. -/
theorem not_isJoined_schema_importedHall :
    ∃ f, standardize (importedHallSaying "You see " "nobody.") = .ok f ∧
      ¬ Forest.IsJoined f.schema := by
  have joined : (standardize (importedHallSaying "You see " "nobody.")).toOption.map
      (fun f => decide (Forest.IsJoined f.schema)) = some false := by
    cbv
  cases done : standardize (importedHallSaying "You see " "nobody.") with
  | error e => simp [done, Except.toOption] at joined
  | ok f => exact ⟨f, rfl, by simpa [done, Except.toOption] using joined⟩

end Form

end WorldMarkup
