import WorldMarkup.Proofs.Form.Lawful
import WorldMarkup.Proofs.Form.Reachable

/-!
Forms and the grammar of documents. What stands in the documents where the grammar has it stands
so in the components of their form and in its declarations. Main statement: the document that the
form of an asset is written as has no fault but its depth or a space in a link.
-/

set_option autoImplicit false
set_option relaxedAutoImplicit false

namespace WorldMarkup

/-! ### Components -/

namespace Component

/-- What the component holds stands lawfully below its entity. -/
structure IsLawful (c : Component) : Prop where
  fields : ∀ f ∈ c.fields, Forest.Stands Tag.standsLawfully (.content c.kind.frame) [f.node]
  items : Forest.Stands Tag.standsLawfully (.content c.kind.frame) c.items

variable {c out : Component} {key : String}

theorem isLawful_ofEntity (e : Entity) (extra : Extra) :
    IsLawful { ofEntity e with extra } where
  fields := by
    intro f hf
    obtain ⟨k, declared, rfl⟩ := List.mem_map.1 hf
    have allowed : e.kind.frame.allows (.field k) = true := by
      simpa [EntityKind.frame, Tag.allows, Tag.inEntity, EntityKind.hasField] using declared
    exact ⟨⟨⟨.inl allowed, rfl, by simp⟩, trivial⟩, trivial⟩
  items := trivial

theorem IsLawful.place (h : c.IsLawful) (kinds : c.fields.map ComponentField.kind = c.kind.fields)
    (roots : ∀ f ∈ c.fields, f.node.data = .field f.kind) {child : Node Tag}
    (stands : Forest.Stands Tag.standsLawfully (.content c.kind.frame) [child]) :
    (Standardize.place c child).IsLawful := by
  unfold Standardize.place
  split
  · rename_i g hg
    obtain ⟨own, hasField⟩ := Option.filter_eq_some_iff.1 hg
    have declared : g ∈ c.fields.map ComponentField.kind := by
      rw [kinds]
      exact List.contains_iff_mem.1 hasField
    rcases child with ⟨d, e', cs'⟩
    obtain rfl : d = .field g := by
      cases d <;> simp_all [Tag.field?]
    refine ⟨?_, h.items⟩
    intro y hy
    rcases (addField_of_declared (f := ⟨g, _⟩) declared).2 y hy with hy | ⟨x, hx, rfl⟩
    · exact h.fields y hy
    · -- all fields open the same scope
      have root := roots x hx
      have field := h.fields x hx
      rcases x with ⟨k, d, e, cs⟩
      obtain rfl : d = .field k := root
      exact ⟨⟨field.1.1, Forest.stands_append.2 ⟨field.1.2, stands.1.2⟩⟩, trivial⟩
  · exact ⟨h.fields, Forest.stands_append.2 ⟨h.items, stands⟩⟩

theorem IsLawful.placeAll (h : c.IsLawful) (wf : c.WellFormed Forest.IsTidy key)
    {children : Forest Tag} (tidy : ∀ n ∈ children, Forest.IsTidy [n])
    (stands : ∀ n ∈ children, Forest.Stands Tag.standsLawfully (.content c.kind.frame) [n]) :
    (children.foldl Standardize.place c).IsLawful := by
  induction children generalizing c with
  | nil => exact h
  | cons n rest ih =>
    have kind : (Standardize.place c n).kind = c.kind := by
      obtain ⟨_, _, placed⟩ := exists_place c n
      rw [placed]
    apply ih (h.place wf.kinds wf.roots (stands n (by simp)))
      (wf.place Forest.gathers_isTidy (tidy n (by simp))) (fun m hm => tidy m (by simp [hm]))
    rw [kind]
    exact fun m hm => stands m (by simp [hm])

theorem IsLawful.settle (h : c.IsLawful) (done : Standardize.settle c = .ok out) :
    out.IsLawful := by
  have editable := Tag.editable_standsLawfully
  rw [Standardize.settle] at done
  obtain ⟨fields, hfields, done⟩ := Except.bind_eq_ok.1 done
  obtain ⟨items, hitems, done⟩ := Except.bind_eq_ok.1 done
  obtain rfl := Except.ok.inj done
  refine ⟨?_, ((h.items.applyEdits editable hitems).joinText editable).stripInherited⟩
  intro g hg
  obtain ⟨f, hf, settled⟩ := Except.exists_of_mem_mapM hfields hg
  exact (h.fields f hf).settleField editable settled

theorem IsLawful.stands_toNode {P : Forest Tag → Prop} (h : c.IsLawful) (wf : c.WellFormed P key)
    (named : key.isEmpty = false) (ordinary : c.kind ≠ .plain .character) :
    c.toNode.Stands Tag.standsLawfully (.content (.asset "")) := by
  obtain ⟨e, tag, kind, own, -⟩ := wf.tag
  have opened : Tag.standsLawfully.below (.content (.asset "")) c.tag = .content c.kind.frame := by
    rw [tag, ← kind]
    rfl
  have allowed : Tag.standsLawfully.allows (.content (.asset "")) c.tag := by
    rw [tag]
    refine ⟨.inl ?_, ?_, by simp⟩
    · simpa [Tag.allows, kind] using ordinary
    · simp [Tag.missing?, own, named]
  refine ⟨allowed, ?_⟩
  rw [opened]
  refine Forest.stands_append.2 ⟨?_, h.items⟩
  rw [Forest.stands_iff]
  intro n hn
  obtain ⟨f, hf, rfl⟩ := List.mem_map.1 hn
  exact (h.fields f (List.mem_filter.1 hf).1).1

end Component

namespace Standardize

variable {content : List (Path Tag)} {imported : List Imported} {form out : Form}

/-- What comes of lawful content stands lawfully in an asset. -/
theorem stands_lawfully_componentOf (lifted : Address.AreLifted content)
    (lawful : Address.AreLawful content) {kind : EntityKind} {key : String} {c : Component}
    (h : componentOf content kind key = .ok (some c)) :
    c.toNode.Stands Tag.standsLawfully (.content (.asset "")) := by
  obtain ⟨hkind, wf⟩ := wellFormed_componentOf lifted h
  obtain ⟨seen, grown, e, extra, children, hgrown, ⟨root, hroot, hdata, -⟩, rfl, rfl, below,
    settled⟩ := componentOf_eq_some h
  let a : Address := ⟨e.kind, e.key, .name⟩
  obtain ⟨o, ho⟩ := List.exists_mem_of_ne_nil _ seen
  have ordinary : e.kind ≠ .plain .character := Address.kind_of_view (a := a) lawful ho
  have tidy : Forest.IsTidy grown := Address.isTidy_grown (a := a) lifted hgrown
  have stands := Address.stands_lawfully_grown (a := a) lawful ordinary hgrown
  have inside : ∀ n ∈ children, Forest.IsTidy [n] ∧
      Forest.Stands Tag.standsLawfully (.content e.kind.frame) [n] := by
    intro n hn
    obtain ⟨m, hm, target, hn⟩ := below n hn
    have tidy := (Forest.isTidy_iff.1 tidy m hm).children
    have stands := Forest.stands_iff.1 stands m hm
    rcases m with ⟨d, x, cs⟩
    have opened : Tag.standsLawfully.below (.content .exported) d = .content e.kind.frame :=
      Address.below_target (a := a) target _
    obtain ⟨-, stands⟩ := stands
    rw [opened] at stands
    exact ⟨Forest.isTidy_cons.2 ⟨Forest.isTidy_iff.1 tidy n hn, Forest.isTidy_nil⟩,
      Forest.stands_iff.1 stands n hn, trivial⟩
  have named : e.key.isEmpty = false := by
    have own := Forest.stands_iff.1 stands root (List.mem_filter.1 (List.mem_of_head? hroot)).1
    rcases root with ⟨d, x, cs⟩
    obtain rfl : d = .entity e := hdata
    have named := own.1.2.1
    simpa [Tag.missing?] using named
  have shell := (Component.wellFormed_ofEntity Forest.gathers_isTidy e).annotate extra none
  have placed := (Component.isLawful_ofEntity e extra).placeAll shell
    (fun n hn => (inside n hn).1) (fun n hn => (inside n hn).2)
  exact (placed.settle settled).stands_toNode wf named (by rwa [hkind])

end Standardize

/-! ### Forms -/

/-- Each component stands lawfully in an asset, unless an import covers it. -/
def Form.IsLawful (f : Form) : Prop :=
  ∀ x ∈ f.byKey, x.2.isElided = true ∨
    x.2.toNode.Stands Tag.standsLawfully (.content (.asset ""))

namespace Standardize

variable {content : List (Path Tag)} {imported : List Imported} {form out : Form}

theorem isLawful_addAll (lifted : Address.AreLifted content) (lawful : Address.AreLawful content)
    {index : KeyIndex} (hform : form.IsLawful)
    (h : index.foldlM (fun form x => addComponent content imported form x.1 x.2) form = .ok out) :
    out.IsLawful ∧ out = { form with byKey := out.byKey, order := out.order } := by
  induction index generalizing form with
  | nil =>
    obtain rfl := Except.ok.inj h
    exact ⟨hform, rfl⟩
  | cons y index ih =>
    rw [List.foldlM_cons] at h
    obtain ⟨next, hnext, hrest⟩ := Except.bind_eq_ok.1 h
    have put {c : Component} (hc : c.isElided = true ∨
        c.toNode.Stands Tag.standsLawfully (.content (.asset ""))) : (form.put c).IsLawful := by
      intro x hx
      rcases Form.mem_putAt hx with rfl | hx
      · exact hc
      · exact hform x hx
    rcases addComponent_cases hnext with ⟨c, origin, made, hput⟩ | ⟨-, ⟨rfl, -⟩ | ⟨x, -, -, hput⟩⟩
    · obtain rfl := Form.insert_eq_ok hput
      have stands := stands_lawfully_componentOf lifted lawful made
      have done := ih (put (c := { c with origin }) (.inr stands)) hrest
      exact done
    · exact ih hform hrest
    · obtain rfl := Form.insert_eq_ok hput
      have elided : Component.isElided
          { Component.ofEntity x.entity with origin := some x.origin } = true := by
        simp [Component.isElided, Component.isEmpty, Component.ofEntity, ComponentField.shell,
          ComponentField.isEmpty, Node.leaf]
      have done := ih (put (.inl elided)) hrest
      exact done

theorem stands_lawfully_declarations {docs : List (Path Tag)}
    (h : Path.AreStanding Tag.standsLawfully (.content (.asset "")) docs) {declared : Forest Tag}
    (grown : declarations (docs.filterMap declarationPath?) = .ok declared) :
    Forest.Stands Tag.standsLawfully (.content (.asset "")) declared := by
  apply stands_declarations Tag.editable_standsLawfully.toRespects h.agree _ grown
  intro q hq
  obtain ⟨above, s, below, hp, rfl, declaration⟩ := exists_of_mem_declarationPaths hq
  obtain ⟨-, lower⟩ := Path.isLawful_append.1 (h.stands _ hp)
  obtain ⟨⟨-, named, lifted⟩, inside⟩ := Path.isLawful_cons.1 lower
  have decides : s.data.isTransparent = false := by
    cases hd : s.data <;> simp_all [isDeclaration, Tag.isTransparent]
  have allowed : (Tag.asset "").allows s.data = true := by
    cases hd : s.data <;> simp_all [isDeclaration, Tag.allows]
  rw [Scope.below_eq_of_opaque decides] at inside
  refine Path.isLawful_cons.2 ⟨⟨.inl allowed, named, lifted⟩, ?_⟩
  rw [Scope.below_eq_of_opaque decides]
  exact inside

/-- The content of accepted assets stands lawfully in an asset. -/
theorem stands_lawfully_combined {inputs : List (Forest Tag)}
    (accepted : ∀ t ∈ inputs, Forest.documentFault? t = none)
    (assets : ∀ t ∈ inputs, ∀ n ∈ t, ∃ key, n.data = .asset key) :
    Forest.Stands Tag.standsLawfully (.content (.asset "")) (combined inputs) := by
  rw [Forest.stands_iff]
  intro m hm
  obtain ⟨t, ht, hm⟩ := List.mem_flatMap.1 hm
  obtain ⟨n, hn, hm⟩ := List.mem_flatMap.1 hm
  obtain ⟨key, asset⟩ := assets t ht n hn
  have grammar := Forest.grammarFault?_of_mem (Forest.documentFault?_none (accepted t ht)).2 hn
  rcases n with ⟨d, e, cs⟩
  obtain rfl : d = .asset key := asset
  simp only [Node.grammarFault?, Option.or_eq_none_iff] at grammar
  exact Forest.stands_iff.1 (stands_lawfully_liftInherited grammar.2 false) m hm

theorem container_of_assets {inputs : List (Forest Tag)}
    (accepted : ∀ t ∈ inputs, Forest.documentFault? t = none)
    (assets : ∀ t ∈ inputs, ∀ n ∈ t, ∃ key, n.data = .asset key) {key : String}
    {kind : ContainerKind} (h : container inputs = .ok (key, kind)) :
    kind = .asset ∧ key.isEmpty = false := by
  unfold container at h
  split at h
  · simp at h
  · rename_i root found
    obtain ⟨t, ht, head⟩ := List.exists_of_findSome?_eq_some found
    have ht : t ∈ inputs := List.mem_reverse.1 ht
    have hroot : root ∈ t := List.mem_of_mem_head? head
    obtain ⟨own, asset⟩ := assets t ht root hroot
    rw [asset] at h
    obtain ⟨rfl, rfl⟩ := Prod.mk.inj (Except.ok.inj h)
    have grammar := Forest.grammarFault?_of_mem (Forest.documentFault?_none (accepted t ht)).2 hroot
    rcases root with ⟨d, e, cs⟩
    obtain rfl : d = .asset own := asset
    simp only [Node.grammarFault?, Option.or_eq_none_iff] at grammar
    have named := Tag.missing?_of_fault?_none grammar.1
    simpa [Tag.missing?] using named

end Standardize

/-- The components that a lawful form is written with stand lawfully in an asset. -/
theorem Form.IsLawful.stands_components {f : Form} (h : f.IsLawful) :
    Forest.Stands Tag.standsLawfully (.content (.asset ""))
      ((f.components.filter (fun c => !c.isElided)).map Component.toNode) := by
  rw [Forest.stands_iff]
  intro n hn
  obtain ⟨c, hc, rfl⟩ := List.mem_map.1 hn
  obtain ⟨listed, kept⟩ := List.mem_filter.1 hc
  obtain ⟨k, -, found⟩ := List.mem_filterMap.1 listed
  obtain ⟨x, hx, rfl⟩ := Option.map_eq_some_iff.1 found
  rcases h x (List.mem_of_find?_eq_some hx) with elided | stands
  · simp [elided] at kept
  · exact stands

theorem fault_of_asset {key : String} (named : key.isEmpty = false) {t : Forest Tag}
    (h : Forest.Stands Tag.standsLawfully (.content (.asset "")) t) {fault : DocumentError}
    (found : Forest.documentFault? [.branch (.asset key) t] = some fault) :
    fault = .tooDeep maxDepth ∨ fault = .disallowedChild "Link" "Space" := by
  have own : (Tag.asset key).fault? none 0 = none := by
    simp [Tag.fault?, Tag.missing?, named, maxDepth]
  have inside : Forest.grammarFault? (some (Setting.below none (.asset key))) 1 t = some fault := by
    simpa [Forest.documentFault?, Node.branch, Tag.isContainer, Forest.grammarFault?,
      Node.grammarFault?, own] using found
  exact fault_of_stands_lawfully (s := Setting.below none (.asset key)) h inside

open Standardize in
/-- The document that the form of assets is written as has no fault but its depth, or a space in a
link that resolving edits has left there. -/
theorem documentFault?_schema_cases {inputs : List (Forest Tag)}
    (assets : ∀ t ∈ inputs, ∀ n ∈ t, ∃ key, n.data = .asset key) {f : Form}
    (done : standardize inputs = .ok f) {fault : DocumentError}
    (found : Forest.documentFault? f.schema = some fault) :
    fault = .tooDeep maxDepth ∨ fault = .disallowedChild "Link" "Space" := by
  obtain ⟨accepted, -, key, kind, declared, index, hcontainer, grown, -, -, -, h⟩ :=
    standardize_eq_ok done
  obtain ⟨rfl, named⟩ := container_of_assets accepted assets hcontainer
  have lifted : Address.AreLifted (Address.contentPaths (combined inputs)) :=
    ((stands_combined accepted).areStanding 0).of_subset (fun p hp => (List.mem_filter.1 hp).1)
  have standing := (stands_lawfully_combined accepted assets).areStanding 0
  have lawful : Address.AreLawful (Address.contentPaths (combined inputs)) :=
    ⟨standing.of_subset (fun p hp => (List.mem_filter.1 hp).1),
      fun p hp => by simpa using (List.mem_filter.1 hp).2⟩
  have declarations := (stands_lawfully_declarations standing grown).stripInherited
  obtain ⟨components, same⟩ := isLawful_addAll lifted lawful (by simp [Form.IsLawful]) h
  have schema : f.schema = [.branch (.asset key) (f.imports ++
      (f.components.filter (fun c => !c.isElided)).map Component.toNode ++ f.exports)] := by
    rw [Form.schema, same]
  have stands : Forest.Stands Tag.standsLawfully (.content (.asset "")) (f.imports ++
      (f.components.filter (fun c => !c.isElided)).map Component.toNode ++ f.exports) := by
    refine Forest.stands_append.2 ⟨Forest.stands_append.2 ⟨?_, ?_⟩, ?_⟩
    · rw [same]
      exact declarations.of_subset (fun n hn => (List.mem_filter.1 hn).1)
    · exact components.stands_components
    · rw [same]
      exact declarations.of_subset (fun n hn => (List.mem_filter.1 hn).1)
  rw [schema] at found
  exact fault_of_asset named stands found

/-- A hall described by a link with a text, part of which is removed. -/
def linkCutShort (text removed : String) : List (Forest Tag) :=
  [[.branch (.asset "house")
    [.branch (.room "hall")
      [.branch (.field .description)
        [.branch (.link "door") [.leaf (.text text)],
          .branch .remove [.branch (.link "door") [.leaf (.text removed)]]]]]]]

theorem documentFault?_schema_cases_doorAhead : ∃ f fault,
    standardize (linkCutShort "door ahead" "ahead") = .ok f ∧
      Forest.documentFault? f.schema = some fault ∧
      (fault = .tooDeep maxDepth ∨ fault = .disallowedChild "Link" "Space") := by
  have fault : (standardize (linkCutShort "door ahead" "ahead")).toOption.map
      (fun f => Forest.documentFault? f.schema) =
        some (some (.disallowedChild "Link" "Space")) := by
    cbv
  cases done : standardize (linkCutShort "door ahead" "ahead") with
  | error e => simp [done, Except.toOption] at fault
  | ok f =>
    have found : Forest.documentFault? f.schema = some (.disallowedChild "Link" "Space") := by
      simpa [done, Except.toOption] using fault
    have assets : ∀ t ∈ linkCutShort "door ahead" "ahead", ∀ n ∈ t, ∃ key, n.data = .asset key := by
      simp [linkCutShort, Node.branch]
    exact ⟨f, _, rfl, found, documentFault?_schema_cases assets done found⟩

/-- What a removal leaves of the text of a link begins with a space of its own, and a link holds
nothing but texts. -/
theorem documentFault?_schema_oldDoor : ∃ f,
    standardize (linkCutShort "old door" "old") = .ok f ∧
      Forest.documentFault? f.schema = some (.disallowedChild "Link" "Space") := by
  have fault : (standardize (linkCutShort "old door" "old")).toOption.map
      (fun f => Forest.documentFault? f.schema) =
        some (some (.disallowedChild "Link" "Space")) := by
    cbv
  cases done : standardize (linkCutShort "old door" "old") with
  | error e => simp [done, Except.toOption] at fault
  | ok f => exact ⟨f, rfl, by simpa [done, Except.toOption] using fault⟩

end WorldMarkup
