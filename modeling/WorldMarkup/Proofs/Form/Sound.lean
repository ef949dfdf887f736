import WorldMarkup.Proofs.Form.Items
import WorldMarkup.Proofs.Form.Plain
import WorldMarkup.Proofs.Form.Renewal

/-!
Components as content without edits makes them. Main statement: the component of a key grows again
from its own tree, refers to known entities only, and its links hold texts.
-/

set_option autoImplicit false
set_option relaxedAutoImplicit false

namespace WorldMarkup

open Standardize
open Growth (regrowth)
open Address (childOrder)

namespace Address

variable {known : Entity → Prop}

theorem IsGrown.own {t : Forest Tag} {kind : EntityKind}
    (h : IsGrown known kind t) {n : Node Tag} (hn : n ∈ t) :
    n.data.category ∈ Category.unordered ∧
      (∀ f, n.data.field? = some f → kind.hasField f = true) ∧
      (n.data.field? = none → Node.Stands (Tag.standsSeated known) .choices n) := by
  have lawful := Forest.stands_iff.1 h.lawful n hn
  have seated := Forest.stands_iff.1 h.seated n hn
  rcases n with ⟨d, e, cs⟩
  obtain ⟨⟨admitted, -, lifted⟩, -⟩ := lawful
  obtain ⟨own, below⟩ := seated
  have allowed : kind.frame.allows d = true := by
    rcases admitted with allowed | ⟨⟨target, link⟩, -⟩
    · exact allowed
    · simp [EntityKind.frame] at link
  refine ⟨Tag.unordered_of_allows (a := kind.frame) rfl lifted allowed, fun f field => ?_,
    fun plain => ⟨?_, ?_⟩⟩
  · obtain rfl := Tag.eq_field field
    simpa [EntityKind.frame, Tag.allows, Tag.inEntity] using allowed
  · exact own.resolve_left (by simp [show d.field? = none from plain])
  · have seat : (Tag.standsSeated known).below .choices d =
        (Tag.standsSeated known).below .whole d := by
      simp [Tag.standsSeated, Seat.below]
    rwa [seat]

end Address

theorem Tag.IsBeside.plainly {known : Entity → Prop} {t : Tag} (h : t.IsBeside known) :
    t.isEditing = false ∧ t.frame ≠ .link "" := by
  rcases h with chain | item | ⟨e, rfl, -⟩
  · cases t <;> simp [isChain] at chain <;> simp [isEditing, frame]
  · cases t <;> simp [category] at item <;> simp [isEditing, frame]
  · simp [isEditing, frame, EntityKind.frame]

theorem Forest.stands_plainly_of_seated {t : Forest Tag} {known : Entity → Prop}
    (h : Forest.Stands (Tag.standsSeated known) .choices t) : ∀ {above : Option Tag},
    (∀ a ∈ above, a.frame ≠ .link "") → Forest.Stands (.under Tag.StandsPlainly) above t := by
  induction t using Forest.induction with
  | nil => exact fun _ => trivial
  | cons d e cs rest hcs hrest =>
    intro above opened
    obtain ⟨own, leaf⟩ := beside_of_seated h _ (mem_trees_of_mem List.mem_cons_self)
    obtain ⟨⟨-, below⟩, beside⟩ := h
    have own : d.IsBeside known := own
    refine ⟨⟨⟨own.plainly.1, fun a ha link => absurd link (opened a ha)⟩, ?_⟩, hrest beside opened⟩
    cases chain : d.isChain with
    | true =>
      have seat : (Tag.standsSeated known).below .choices d = .choices := by
        simp [Tag.standsSeated, Seat.below, Path.field?_of_isChain chain, chain]
      rw [seat] at below
      exact hcs below (by simpa using own.plainly.2)
    | false =>
      obtain rfl : cs = [] := leaf chain
      trivial

namespace Component

variable {c : Component} {root : Node Tag} {known : Entity → Prop}

theorem items_settle {shell : Component} (whole : Address.IsGrown known shell.kind root.children)
    (items : shell.items = []) (done : settle (root.children.foldl place shell) = .ok c) :
    c.items = Forest.stripInherited
        (List.filter (fun n => n.data.field?.isNone) root.children) ∧
      Forest.Stands (Tag.standsSeated known) .choices c.items := by
  have own : List.filter (fun n : Node Tag => (n.data.field?.filter shell.kind.hasField).isNone)
      root.children = List.filter (fun n => n.data.field?.isNone) root.children := by
    refine List.filter_congr fun n hn => ?_
    cases field : n.data.field? with
    | none => rfl
    | some f => simp [(whole.own hn).2.1 f field]
  have seated : Forest.Stands (Tag.standsSeated known) .choices
      (List.filter (fun n => n.data.field?.isNone) root.children) := by
    refine Forest.stands_iff.2 fun n hn => ?_
    obtain ⟨hn, plain⟩ := List.mem_filter.1 hn
    exact (whole.own hn).2.2 (by simpa using plain)
  have beside := Forest.isBeside_of_seated seated
  rw [settle] at done
  obtain ⟨fields, -, done⟩ := Except.bind_eq_ok.1 done
  obtain ⟨resolved, applied, done⟩ := Except.bind_eq_ok.1 done
  rw [items_placeAll, items, own, List.nil_append] at applied
  obtain rfl := Forest.applyEdits_eq (fun x hx => (beside x hx).free) applied
  rw [← Except.ok.inj done]
  show Forest.stripInherited (Forest.joinText _) = _ ∧ _
  rw [Forest.joinText_of_textless fun x hx => (beside x hx).textless]
  exact ⟨rfl, seated.stripInherited⟩

/-- A component as content without edits makes it: it grows again, it refers to known entities, and
its links hold texts. -/
structure IsSound (known : Entity → Prop) (c : Component) : Prop where
  steady : c.IsSteady
  within : ∀ x ∈ Forest.preorder c.items, ∀ e, x.1 = .entity e → known e
  plain : c.toNode.Stands (.under Tag.StandsPlainly) none

/-- The items of a component stand as they grow below its entity. -/
structure HasGrownItems (known : Entity → Prop) (c : Component) : Prop where
  seated : Forest.Stands (Tag.standsSeated known) .choices c.items
  lawful : Forest.Stands Tag.standsLawfully (.content c.kind.frame) c.items
  inPlace : Forest.InPlaceAfter (regrowth childOrder) [] c.items
  faultless : Forest.faultAt? Tag.isWrapper 2 c.items = none
  unnamed : Forest.IsUnnamed c.items

def HasGrownFields (c : Component) : Prop :=
  ∀ f ∈ c.fields, ∃ g content, f = .holding g (ComponentField.finish content) ∧
    ∀ n ∈ content, n.IsComposed (.field g) 3

theorem hasGrownItems_settle {shell : Component}
    (whole : Address.IsGrown known shell.kind root.children) (items : shell.items = [])
    (kind : c.kind = shell.kind) (done : settle (root.children.foldl place shell) = .ok c) :
    c.HasGrownItems known := by
  obtain ⟨listed, seated⟩ := items_settle whole items done
  have sub : ∀ n ∈ List.filter (fun n : Node Tag => n.data.field?.isNone) root.children,
      n ∈ root.children := fun n hn => (List.mem_filter.1 hn).1
  refine ⟨seated, ?_, ?_, ?_, ?_⟩
  · rw [listed, kind]
    exact (whole.lawful.of_subset sub).stripInherited
  · rw [listed]
    exact (whole.inPlace.fieldless (fun n hn => (whole.own hn).1) (by simp) (by simp)
      (.inl rfl)).stripInherited
  · rw [listed]
    refine Forest.faultAt?_stripInherited (Forest.faultAt?_eq_none_iff.2 fun n hn => ?_)
    exact Forest.faultAt?_eq_none_iff.1 whole.faultless n (sub n hn)
  · rw [listed]
    refine Forest.IsUnnamed.stripInherited fun x hx => whole.unnamed x ?_
    rw [Forest.preorder_eq_flatMap, List.mem_flatMap] at hx ⊢
    obtain ⟨m, hm, hx⟩ := hx
    exact ⟨m, sub m hm, hx⟩

namespace HasGrownItems

variable (h : c.HasGrownItems known)
include h

theorem refersBarely (bare : ∀ e, known e → e.withoutSource = e) :
    Forest.RefersBarely c.items := by
  intro n hn entity
  obtain ⟨own, leaf⟩ := Forest.beside_of_seated h.seated n hn
  obtain ⟨e, data⟩ : ∃ e, n.data = .entity e := by
    cases hd : n.data <;> simp_all [Tag.entity?]
  rw [data] at own
  refine ⟨?_, h.unnamed _ (Forest.mem_preorder_of_mem_trees hn) entity,
    leaf (by rw [data]; rfl)⟩
  rw [data, Tag.withoutSource, bare e own.knows]

theorem isFinished (unmarked : Forest.IsLocal c.items) : Forest.IsFinished c.items where
  free x hx := (Forest.isBeside_of_seated h.seated x hx).free
  shallow := by
    have := Forest.depth_of_faultAt? (by simp [maxDepth]) h.faultless
    omega
  joined := Forest.joinText_of_textless fun x hx =>
    (Forest.isBeside_of_seated h.seated x hx).textless
  unmarked := unmarked

theorem inPlaceAfter_fields {upper : List Tag} (fields : ∀ x ∈ upper, ∃ g, x = .field g) :
    Forest.InPlaceAfter (regrowth childOrder) upper c.items := by
  refine Forest.InPlace.beyond h.inPlace fun n hn =>
    ⟨Rules.finds_eq_false fun x hx _ _ => ?_, ?_⟩
  · obtain ⟨g, rfl⟩ := fields x hx
    refine Tag.apart_of_field ?_
    simp [(Forest.isBeside_of_seated h.seated _ (Forest.mem_preorder_of_mem hn)).plain.1]
  · rw [Rules.outranked]
    cases head : List.head? _ with
    | none => rfl
    | some x =>
      obtain ⟨g, rfl⟩ := fields x (List.mem_of_mem_head? head)
      exact Tag.not_ranksBelow_field _ g

end HasGrownItems

namespace HasGrownFields

variable (h : c.HasGrownFields)
include h

theorem running {f : ComponentField} (hf : f ∈ c.fields) :
    ∃ g, f.node = .branch (.field g) f.node.children ∧
      ∀ m ∈ f.node.children, m.IsComposed (.field g) 3 := by
  obtain ⟨g, content, rfl, composed⟩ := h f hf
  exact ⟨g, rfl, Forest.isComposed_finish rfl composed⟩

theorem kept {f : ComponentField} (hf : f ∈ c.fields) :
    ∀ x ∈ Forest.preorder f.node.children, x.1.isKept = true := by
  obtain ⟨g, -, composed⟩ := h.running hf
  have fits := Forest.fits_iff.2 fun m hm => (composed m hm).fits
  exact Forest.isKept_of_fits rfl fits

theorem isFinished {f : ComponentField} (hf : f ∈ c.fields) (unmarked : Forest.IsLocal [f.node]) :
    Forest.IsFinished f.node.children := by
  obtain ⟨g, content, rfl, composed⟩ := h f hf
  exact Forest.isFinished_finish rfl (by simp [maxDepth]) composed
    (Forest.isLocal_cons.1 unmarked).2.1

theorem stands_plainly (items : c.HasGrownItems known) {e : Entity} (tag : c.tag = .entity e) :
    c.toNode.Stands (.under Tag.StandsPlainly) none := by
  have opened : ∀ a ∈ some c.tag, a.frame ≠ .link "" := by
    intro a ha
    obtain rfl := Option.some.inj ha
    simp [tag, Tag.frame, EntityKind.frame]
  refine ⟨⟨by rw [tag]; rfl, by simp⟩, Forest.stands_append.2
    ⟨Forest.stands_iff.2 fun n hn => ?_, Forest.stands_plainly_of_seated items.seated opened⟩⟩
  obtain ⟨f, hf, rfl⟩ := List.mem_map.1 hn
  obtain ⟨g, node, composed⟩ := h.running (List.mem_filter.1 hf).1
  rw [node]
  refine ⟨⟨rfl, fun a ha link => absurd link (opened a ha)⟩, ?_⟩
  exact Forest.stands_plainly_of_fits.1 (by simp [Tag.frame])
    (Forest.fits_iff.2 fun m hm => (composed m hm).fits)

theorem inPlace_children {key : String} (items : c.HasGrownItems known)
    (wf : c.WellFormed Forest.IsSettled key) :
    Forest.InPlace (regrowth childOrder) c.toNode.children := by
  have shown : ∀ f ∈ c.fields.filter (fun f => !f.isEmpty), f ∈ c.fields := fun f hf =>
    (List.mem_filter.1 hf).1
  rw [children_toNode]
  refine Forest.inPlaceAfter_append.2 ⟨inPlace_fields ?_ ?_ ?_ (by simp),
    items.inPlaceAfter_fields ?_⟩
  · exact ((wf.kinds ▸ nodup_fields c.kind).sublist (List.filter_sublist.map _))
  · exact fun f hf => wf.roots f (shown f hf)
  · intro f hf
    obtain ⟨g, node, composed⟩ := h.running (shown f hf)
    rw [node]
    exact Forest.inPlaceAfter_of_still
      (fun m hm => Forest.still_of_fits rfl (composed m hm).fits) fun m hm => (composed m hm).inPlace
  · intro x hx
    rw [List.append_nil, List.mem_reverse, List.map_map] at hx
    obtain ⟨f, hf, rfl⟩ := List.mem_map.1 hx
    exact ⟨_, wf.roots f (shown f hf)⟩

theorem faultless_children (items : c.HasGrownItems known) :
    Forest.faultAt? Tag.isWrapper 2 c.toNode.children = none := by
  rw [children_toNode, Forest.faultAt?_eq_none_iff]
  intro n hn
  rcases List.mem_append.1 hn with hn | hn
  · obtain ⟨f, hf, rfl⟩ := List.mem_map.1 hn
    obtain ⟨g, node, composed⟩ := h.running (List.mem_filter.1 hf).1
    rw [node]
    exact Node.fault?_eq_none.2 ⟨by simp [maxDepth], fun _ => rfl,
      Forest.faultAt?_eq_none_iff.2 fun m hm => (composed m hm).faultless⟩
  · exact Forest.faultAt?_eq_none_iff.1 items.faultless n hn

end HasGrownFields

theorem isSound_settle {shell : Component} {content : FieldKind → Forest Tag} {key : String}
    (whole : Address.IsGrown known shell.kind root.children) (items : shell.items = [])
    (wf : c.WellFormed Forest.IsSettled key) (kind : c.kind = shell.kind)
    (unmarked : c.extra.inherited = false)
    (holds : c.Holds fun f => ComponentField.finish (content f))
    (composed : ∀ f, ∀ n ∈ content f, n.IsComposed (.field f) 3)
    (bare : ∀ e, known e → e.withoutSource = e)
    (done : settle (root.children.foldl place shell) = .ok c) :
    c.IsSound known := by
  have grown := hasGrownItems_settle whole items kind done
  have beside := Forest.isBeside_of_seated grown.seated
  have filled : c.HasGrownFields := by
    intro f hf
    rw [holds] at hf
    obtain ⟨g, -, rfl⟩ := List.mem_map.1 hf
    exact ⟨g, content g, rfl, composed g⟩
  obtain ⟨e, tag, kind, own, source⟩ := wf.tag
  exact {
    within := fun x hx e data => (data ▸ beside x hx).knows
    plain := filled.stands_plainly grown tag
    steady := {
      tag := ⟨e, tag, kind, own.trans wf.key_eq.symm, source⟩
      unmarked
      holds := ⟨_, holds⟩
      kept := fun _ hf => filled.kept hf
      finished := fun f hf => filled.isFinished hf (wf.fields f hf).2
      plain := fun x hx => (beside x hx).plain
      nested := Forest.nested_of_stands grown.seated grown.lawful rfl
      settled := grown.isFinished wf.items.2
      bare := grown.refersBarely bare
      inPlace := filled.inPlace_children grown wf
      faultless := filled.faultless_children grown } }

end Component

namespace Standardize

variable {t : Forest Tag} {known : Entity → Prop} {kind : EntityKind} {key : String} {c : Component}

theorem exists_grown_of_componentOf (steady : Address.AreSteady known (Address.contentPaths t))
    (h : componentOf (Address.contentPaths t) kind key = .ok (some c)) :
    ∃ (root : Node Tag) (e : Entity),
      growComponent kind key ((Address.contentPaths t).filterMap (Ownership.ownedPath? kind key)) =
        .ok [root] ∧ e.kind = kind ∧ Address.IsGrown known kind root.children ∧
      settle (root.children.foldl place
          { Component.ofEntity e with extra := { id := root.extra.id } }) =
        .ok c := by
  rw [componentOf] at h
  split at h
  · simp [pure, Except.pure] at h
  · rename_i seen
    obtain ⟨grown, grows, h⟩ := Except.bind_eq_ok.1 h
    split at h
    · simp [throw, throwThe, MonadExceptOf.throw] at h
    · rename_i root others roots
      have found : ∀ n ∈ root :: others, n ∈ grown ∧ n.data.isEntityOf kind key = true := by
        intro n hn
        rw [← roots] at hn
        exact List.mem_filter.1 hn
      obtain ⟨rfl, target, whole⟩ := Address.isGrown_children (a := ⟨kind, key, .name⟩) steady
        (by simpa [Address.view] using seen) grows (found root (by simp)).1
      obtain rfl : others = [] := by
        have few := congrArg List.length roots
        have := List.length_filter_le (fun n : Node Tag => n.data.isEntityOf kind key) [root]
        simp only [List.length_cons, List.length_nil] at few this
        exact List.length_eq_zero_iff.1 (by omega)
      obtain ⟨e, tag, own, -⟩ := Growth.exists_of_isEntityOf (found root (by simp)).2
      rw [tag, Component.ofTag] at h
      simp only [List.flatMap_nil, List.append_nil] at h
      obtain ⟨settled, done, made⟩ := Except.bind_eq_ok.1 h
      obtain rfl : settled = c := by simpa [pure, Except.pure] using made
      exact ⟨root, e, grows, own, whole, done⟩

/-- The component of a key grows again from its own tree, and refers to known entities. -/
theorem isSound_componentOf (fits : Forest.Fits none t)
    (lifted : Address.AreLifted (Address.contentPaths t))
    (steady : Address.AreSteady known (Address.contentPaths t))
    (bare : ∀ e, known e → e.withoutSource = e)
    (h : componentOf (Address.contentPaths t) kind key = .ok (some c)) :
    c.IsSound known := by
  obtain ⟨own, wf⟩ := wellFormed_componentOf lifted h
  obtain ⟨-, -, holds⟩ := holds_of_componentOf_some fits h
  obtain ⟨root, e, grows, rfl, whole, done⟩ := exists_grown_of_componentOf steady h
  have composed : ∀ f, ∀ n ∈ Address.excerpt ⟨e.kind, key, f⟩ .outside t,
      n.IsComposed (.field f) 3 := by
    intro f n hn
    have standing := Forest.fits_iff.1 (Address.fits_excerpt_top ⟨e.kind, key, f⟩ fits) n hn
    rcases Address.grown_excerpt ⟨e.kind, key, f⟩ fits grows with none | ⟨root', same, -, held⟩
    · simp at none
    · obtain rfl := List.singleton_inj.1 same
      rw [← held] at hn
      obtain ⟨m, hm, hn⟩ := List.mem_flatMap.1 hn
      have hm := (List.mem_filter.1 hm).1
      obtain ⟨d, x, cs⟩ := m
      refine ⟨standing, ?_, ?_⟩
      · exact Forest.InPlaceAfter.nodes (Forest.InPlaceAfter.nodes whole.inPlace _ hm) n hn
      · have faultless := Forest.faultAt?_eq_none_iff.1 whole.faultless _ hm
        exact Forest.faultAt?_eq_none_iff.1 (Node.fault?_eq_none.1 faultless).2.2 n hn
  have unmarked : c.extra.inherited = false := by
    obtain ⟨fields, items, rfl⟩ := Component.exists_settled done
    rfl
  exact Component.isSound_settle whole rfl wf own unmarked holds composed bare done

end Standardize

end WorldMarkup
