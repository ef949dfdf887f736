import WorldMarkup.Proofs.Form.Choosing
import WorldMarkup.Proofs.Form.Identifiers
import WorldMarkup.Proofs.Form.Reachable
import WorldMarkup.Proofs.Form.Steady

/-!
Forms that are found again in their documents. In the document of an asset each written component
stands as its own tree, and the others only refer to it. Main statement: standardizing the document
of a form whose components their trees make again gives the same declarations and the same
components, in an order that need not be the same.
-/

set_option autoImplicit false
set_option relaxedAutoImplicit false

namespace WorldMarkup

open Standardize
open Ownership (slot? ownedPath? untilNested)
open SplitChain (AreOwned)

namespace Component

variable {c : Component} {a : Address} {first : Nat} {p o : Path Tag}

theorem IsSteady.isTarget_iff (h : c.IsSteady) :
    a.isTarget c.tag = true ↔ c.kind = a.kind ∧ c.key = a.key := by
  obtain ⟨e, tag, kind, key, -⟩ := h.tag
  simp [Address.isTarget, Tag.isEntityOf, tag, kind, key]

theorem IsSteady.refers (h : c.IsSteady) (other : a.isTarget c.tag = false)
    (hp : p ∈ Node.paths first c.toNode) (ho : ownedPath? a.kind a.key p = some o) :
    a.Refers o ∧ ∀ s ∈ o, ∀ e, s.data = .entity e → (Tag.entity e).inEntity c.kind = true := by
  obtain ⟨r, hr, rfl⟩ := List.mem_map.1 (Forest.paths_eq_rests first c.tag c.extra _ ▸ hp)
  obtain ⟨above, t, below, split, target, -, shape⟩ := Address.ownedPath?_cases ho
  rcases above with _ | ⟨s, x⟩
  · obtain ⟨rfl, -⟩ := List.cons.inj split
    simp [other] at target
  · obtain ⟨-, rfl⟩ := List.cons.inj split
    obtain ⟨e, entity, -⟩ := Address.exists_entity_of_isTarget target
    rw [Forest.rests] at hr
    split at hr
    · simp at hr
    obtain ⟨rfl, same, bare⟩ := h.refersBarely.ends hr (by simp [entity, Tag.entity?])
    obtain ⟨-, rfl⟩ | ⟨more, -⟩ := shape
    · refine ⟨⟨t, rfl, target, same, bare⟩, ?_⟩
      intro s' hs e' entity'
      obtain rfl := List.mem_singleton.1 hs
      have held : (s'.data, s'.extra) ∈ Forest.preorder c.toNode.children :=
        Forest.mem_preorder_of_mem_path hr (by simp)
      rw [children_toNode, Forest.preorder_append, List.mem_append] at held
      rcases held with held | held
      · exfalso
        rcases h.of_mem_fields held with ⟨g, field, -⟩ | kept
        · simp [entity'] at field
        · simpa [entity', Tag.entity?] using Address.entity?_of_isKept kept
      · exact h.nested _ held e' entity'
    · simp at more

end Component

namespace Address

variable {a : Address} {cs before after : List Component} {first : Nat} {o : Path Tag}

theorem refers_of_mem_view (steady : ∀ c ∈ cs, c.IsSteady)
    (others : ∀ c ∈ cs, a.isTarget c.tag = false)
    (ho : o ∈ a.view (Forest.pathsFrom first (cs.map Component.toNode))) :
    a.Refers o ∧ ∃ c ∈ cs, ∀ s ∈ o, ∀ e, s.data = .entity e →
      (Tag.entity e).inEntity c.kind = true := by
  obtain ⟨p, hp, ho⟩ := mem_view.1 ho
  obtain ⟨n, hn, k, hp⟩ := Forest.exists_paths_of_mem_pathsFrom hp
  obtain ⟨c, hc, rfl⟩ := List.mem_map.1 hn
  obtain ⟨refers, nested⟩ := (steady c hc).refers (others c hc) hp ho
  exact ⟨refers, c, hc, nested⟩

/-- What is seen of the entity among the components is its own tree, and references before it and
after it. -/
theorem view_components {c : Component} (h : c.IsSteady) (kind : a.kind = c.kind)
    (key : a.key = c.key)
    (nests : ∀ p ∈ Forest.pathsFrom first ((before ++ c :: after).map Component.toNode),
      p.Pairwise Path.Nests) :
    ∃ k k', a.view (Forest.pathsFrom first ((before ++ c :: after).map Component.toNode)) =
      a.view (Forest.pathsFrom first (before.map Component.toNode)) ++
        Node.paths k c.toNode ++ a.view (Forest.pathsFrom k' (after.map Component.toNode)) ∧
      ∀ p ∈ Node.paths k c.toNode, p.Pairwise Path.Nests := by
  rw [List.map_append, List.map_cons, Forest.pathsFrom_append, Forest.pathsFrom] at nests ⊢
  simp only [List.mem_append] at nests
  refine ⟨first + Forest.size (before.map Component.toNode),
    first + Forest.size (before.map Component.toNode) + c.toNode.size, ?_,
    fun p hp => nests p (.inr (.inl hp))⟩
  rw [view, view, view, List.filterMap_append, List.filterMap_append, List.append_assoc]
  refine congrArg (_ ++ ·) (congrArg (· ++ _) ?_)
  rw [List.filterMap_congr fun p hp => (h.heads kind key hp (nests p (.inr (.inl hp)))).2]
  exact List.filterMap_some

end Address

theorem Forest.liftInherited_of_isLocal {t : Forest Tag} (h : Forest.IsLocal t) :
    Forest.liftInherited false t = t := by
  induction t using Forest.induction with
  | nil => rfl
  | cons d e cs rest hcs hrest =>
    obtain ⟨⟨plain, unmarked⟩, below, beside⟩ := Forest.isLocal_cons.1 h
    rw [Forest.liftInherited, Node.liftInherited, if_neg plain, hrest beside]
    simp only [unmarked, Bool.or_self, hcs below]
    rw [← unmarked]
    rfl

namespace Standardize

variable {t u : Forest Tag} {first : Nat}

theorem filter_isContent_declared (h : ∀ n ∈ t, isDeclaration n.data = true) :
    (Forest.pathsFrom first t).filter (fun p => decide p.IsContent) = [] := by
  refine List.filter_eq_nil_iff.2 fun p hp => ?_
  obtain ⟨n, hn, k, q, -, rfl⟩ := Forest.exists_root_of_mem_pathsFrom hp
  simp [Path.IsContent, h n hn]

theorem filterMap_declarationPath?_declared (h : ∀ n ∈ t, isDeclaration n.data = true) :
    (Forest.pathsFrom first t).filterMap declarationPath? = Forest.pathsFrom first t := by
  refine (List.filterMap_congr fun p hp => ?_).trans List.filterMap_some
  obtain ⟨n, hn, k, q, -, rfl⟩ := Forest.exists_root_of_mem_pathsFrom hp
  simp [declarationPath?, h n hn]

theorem isContent_of_plain (h : ∀ x ∈ Forest.preorder t, isDeclaration x.1 = false) {p : Path Tag}
    (hp : p ∈ Forest.pathsFrom first t) : p.IsContent := fun _ hs =>
  h _ (Forest.mem_preorder_of_mem_path hp hs)

theorem filter_isContent_plain (h : ∀ x ∈ Forest.preorder t, isDeclaration x.1 = false) :
    (Forest.pathsFrom first t).filter (fun p => decide p.IsContent) = Forest.pathsFrom first t :=
  List.filter_eq_self.2 fun _ hp => by simpa using isContent_of_plain h hp

theorem filterMap_declarationPath?_plain (h : ∀ x ∈ Forest.preorder t, isDeclaration x.1 = false) :
    (Forest.pathsFrom first t).filterMap declarationPath? = [] := by
  refine List.filterMap_eq_nil_iff.2 fun p hp => ?_
  have content := declarationPath?_isNone p
  rw [decide_eq_true (isContent_of_plain h hp)] at content
  simpa using content

theorem exists_foldlM_observe (K : String → Option EntityKind) {es : List Entity}
    {index : KeyIndex} (known : ∀ e ∈ es, K e.key = some e.kind)
    (old : ∀ x ∈ index, K x.1 = some x.2) : ∃ out, es.foldlM observe index = .ok out ∧
      ∀ x ∈ out, K x.1 = some x.2 := by
  induction es generalizing index with
  | nil => exact ⟨index, rfl, old⟩
  | cons e es ih =>
    obtain ⟨own, known⟩ := List.forall_mem_cons.1 known
    rw [List.foldlM_cons, observe]
    split
    · rename_i key kind found
      have mem := List.mem_of_find?_eq_some found
      have same : key = e.key := by simpa using List.find?_some found
      have kinds := (old _ mem).symm.trans (same ▸ own)
      rw [if_pos (Option.some.inj kinds)]
      exact ih known old
    · refine ih known fun x hx => ?_
      rcases List.mem_append.1 hx with hx | hx
      · exact old x hx
      · obtain rfl := List.mem_singleton.1 hx
        exact own

/-- Declarations that are in their places, without faults, grow back. -/
theorem declarations_of_settled (settled : Forest.Settled worldRules (t ++ u)) {first' : Nat}
    (later : first + Forest.size t ≤ first')
    (faultless : ∀ p ∈ Forest.pathsFrom first t ++ Forest.pathsFrom first' u,
      Path.fault? Tag.isWrapper p = none) :
    declarations (Forest.pathsFrom first t ++ Forest.pathsFrom first' u) = .ok (t ++ u) := by
  rw [declarations]
  split
  · rename_i none
    simp only [List.isEmpty_iff, List.append_eq_nil_iff] at none
    have ht : t = [] := by
      by_contra filled
      exact Forest.pathsFrom_ne_nil filled _ none.1
    have hu : u = [] := by
      by_contra filled
      exact Forest.pathsFrom_ne_nil filled _ none.2
    rw [ht, hu]
    rfl
  · have found : (Forest.pathsFrom first t ++ Forest.pathsFrom first' u).findSome?
        (Path.fault? worldRules.isWrapper) = none := List.findSome?_eq_none_iff.2 faultless
    have merges : ∀ s : Step Tag, (Growth.regrowth []).combine s s = (s.data, s.extra) :=
      Step.settle_self
    obtain ⟨before, after⟩ := Forest.inPlaceAfter_append.1
      (Forest.SettledAfter.inPlaceAfter (r := Growth.regrowth []) rfl settled)
    have grown : Growth.insertAll (Growth.regrowth []) (Forest.pathsFrom first t) [] =
        Forest.numbered first t :=
      Growth.insertAll_of_inPlace merges (g := []) before (by simp)
    have data : (Forest.numbered first t).reverse.map (fun n => n.data.1) =
        (List.map Node.data t).reverse := by
      rw [List.map_reverse, ← Growth.data_forest, Forest.forest_numbered]
    have older : ∀ n ∈ Forest.numbered first t, n.data.2 < first' := by
      intro n hn
      have := (Forest.number_of_mem_trees (Forest.mem_trees_of_mem hn)).2
      omega
    rw [Alignment.regrow, Outline.ofPaths, found]
    refine congrArg Except.ok ?_
    show Growth.forest (Growth.insertAll (Growth.regrowth []) _ []) = t ++ u
    rw [Growth.insertAll_append, grown,
      Growth.insertAll_of_inPlace merges (by rw [data]; simpa using after) older,
      Growth.forest_append, Forest.forest_numbered, Forest.forest_numbered]

end Standardize

theorem Entity.eq_plain {e : Entity} {p : PlainKind} (h : e.kind = .plain p) :
    e = .plain p e.key e.source := by
  cases e <;> simp [kind] at h
  rw [h]
  rfl

theorem Tag.plain_or_rank_lt {e : Entity} {kind : EntityKind}
    (h : (Tag.entity e).inEntity kind = true) :
    (∃ p, e.kind = .plain p) ∨ kind.rank < e.kind.rank := by
  cases e with
  | plain p key source => exact .inl ⟨p, rfl⟩
  | _ =>
    refine .inr ?_
    cases kind with
    | plain q => cases q <;> simp_all [inEntity, Entity.kind, EntityKind.rank]
    | _ => simp [inEntity] at h

/-- A reference says what the component says where the entity is within a component of a kind that
is not before its own. -/
theorem Component.IsSteady.eq_tag {c : Component} {a : Address} {t : Tag} {kind : EntityKind}
    (h : c.IsSteady) (same : a.kind = c.kind) (key : a.key = c.key) (target : a.isTarget t = true)
    (bare : t.withoutSource = t) (nested : ∀ e, t = .entity e → (Tag.entity e).inEntity kind = true)
    (behind : c.kind.rank ≤ kind.rank) : t = c.tag := by
  obtain ⟨e, tag, kind', key', source⟩ := h.tag
  obtain ⟨e', rfl, hkind, hkey⟩ := Address.exists_entity_of_isTarget target
  obtain ⟨p, plain⟩ := (Tag.plain_or_rank_lt (nested e' rfl)).resolve_right (by
    rw [hkind, same]
    omega)
  have bare : e'.withoutSource = e' := Tag.entity.inj bare
  rw [tag, Entity.eq_plain plain,
    Entity.eq_plain (kind'.trans (same.symm.trans (hkind.symm.trans plain))),
    hkey, key, key', source, ← bare, Entity.source_withoutSource]

/-- The component is found again: as it stands, or, where an import covers it, empty. -/
structure Component.IsRenewed (c d : Component) : Prop where
  key : d.key = c.key
  kind : d.kind = c.kind
  origin : d.origin = c.origin
  written : c.isElided = false → d = c
  elided : c.isElided = true → d.isElided = true

theorem Component.isEmpty_ofEntity (e : Entity) (origin : Option ImportOrigin) :
    { ofEntity e with origin }.isEmpty = true := by
  simp [isEmpty, ofEntity, ComponentField.shell, ComponentField.isEmpty, Node.leaf,
    List.all_eq_true]

namespace Form

variable {f : Form} {c : Component} {k : String}

theorem insert_of_new {c : Component} (new : f.component? c.key = none) :
    f.insert c = .ok (f.put c) := by
  rw [insert, new]

def written (f : Form) : List Component := f.components.filter (fun c => !c.isElided)

/-- What the document of an asset's form holds. -/
def body (f : Form) : Forest Tag := f.imports ++ f.written.map Component.toNode ++ f.exports

def kind? (f : Form) (k : String) : Option EntityKind := (f.component? k).map Component.kind

/-- What standardizing the document of an asset's form needs to find the form again. -/
structure IsSteady (f : Form) : Prop where
  table : f.IsTable Forest.IsSettled
  grouped : f.IsGrouped
  kind : f.kind = .asset
  accepted : Forest.documentFault? f.schema = none
  free : Forest.IsEditFree f.schema
  faultless : Forest.fault? Tag.isWrapper f.body = none
  components : ∀ c ∈ f.written, c.IsSteady
  within : ∀ c ∈ f.written, ∀ x ∈ Forest.preorder c.items, ∀ e, x.1 = .entity e →
    f.kind? e.key = some e.kind
  declared : ∀ x ∈ List.flatMap importedBy f.imports, f.kind? x.entity.key = some x.entity.kind
  origins : ∀ k c, f.component? k = some c → c.origin =
    ((List.flatMap importedBy f.imports).find? (fun x => x.entity.key == k)).map Imported.origin
  imports : ∀ n ∈ f.imports, n.data.category = .imported
  exports : ∀ n ∈ f.exports, n.data.category = .exported
  unmarked : Forest.IsLocal (f.imports ++ f.exports)
  settled : Forest.Settled worldRules (f.imports ++ f.exports)

theorem schema_eq (kind : f.kind = .asset) : f.schema = [.branch (.asset f.key) f.body] := by
  rw [schema, kind]
  rfl

theorem IsTable.mem_components {P : Forest Tag → Prop} (h : f.IsTable P) :
    c ∈ f.components ↔ f.component? c.key = some c := by
  rw [Form.components, List.mem_filterMap]
  constructor
  · rintro ⟨k, -, found⟩
    rwa [(h.component found).key_eq]
  · intro found
    exact ⟨c.key, h.mem_order_iff.2 (by simp [found]), found⟩

theorem IsTable.mem_written {P : Forest Tag → Prop} (h : f.IsTable P) :
    c ∈ f.written ↔ f.component? c.key = some c ∧ c.isElided = false := by
  simp [written, List.mem_filter, h.mem_components]

theorem IsTable.pairwise_components {P : Forest Tag → Prop} (h : f.IsTable P)
    (grouped : f.IsGrouped) :
    f.components.Pairwise (fun c d => c.key ≠ d.key ∧ c.kind.rank ≤ d.kind.rank) := by
  rw [Form.components, List.pairwise_filterMap]
  refine (h.once.and grouped).imp ?_
  rintro k k' ⟨other, ranks⟩ c hc d hd
  refine ⟨?_, ranks c d hc hd⟩
  rwa [(h.component hc).key_eq, (h.component hd).key_eq]

theorem preorder_map_toNode {cs : List Component} {x : Tag × Extra}
    (hx : x ∈ Forest.preorder (cs.map Component.toNode)) :
    ∃ c ∈ cs, x = (c.tag, c.extra) ∨ x ∈ Forest.preorder c.toNode.children := by
  rw [Forest.preorder_eq_flatMap, List.mem_flatMap] at hx
  obtain ⟨n, hn, hx⟩ := hx
  obtain ⟨c, hc, rfl⟩ := List.mem_map.1 hn
  exact ⟨c, hc, by simpa [Component.toNode, Node.preorder] using hx⟩

/-- What comes of standardizing the document of a form: the same declarations, and the same
components, in an order that need not be the same. -/
structure Restores (f g : Form) : Prop where
  key : g.key = f.key
  kind : g.kind = f.kind
  imports : g.imports = f.imports
  exports : g.exports = f.exports
  order : g.order.Perm f.order
  components : ∀ k, Option.Rel Component.IsRenewed (f.component? k) (g.component? k)

namespace IsSteady

variable (h : f.IsSteady)
include h

theorem of_mem_preorder {x : Tag × Extra}
    (hx : x ∈ Forest.preorder (f.written.map Component.toNode)) :
    isDeclaration x.1 = false ∧ ∀ e, x.1 = .entity e → f.kind? e.key = some e.kind := by
  obtain ⟨c, hc, hx⟩ := preorder_map_toNode hx
  have steady := h.components c hc
  obtain ⟨e, tag, kind, key, -⟩ := steady.tag
  have found := (h.table.mem_written.1 hc).1
  rcases hx with rfl | hx
  · refine ⟨by rw [tag]; rfl, fun e' same => ?_⟩
    obtain rfl : e = e' := by simpa [tag] using same
    simp [kind?, key, found, kind]
  · rw [Component.children_toNode, Forest.preorder_append, List.mem_append] at hx
    rcases hx with hx | hx
    · rcases steady.of_mem_fields hx with ⟨g, field, -⟩ | kept
      · exact ⟨by rw [field]; rfl, by simp [field]⟩
      · refine ⟨Address.isDeclaration_of_isKept kept, fun e' same => ?_⟩
        simpa [same, Tag.entity?] using Address.entity?_of_isKept kept
    · exact ⟨(steady.plain x hx).2, h.within c hc x hx⟩

theorem isLocal_body : Forest.IsLocal f.body := by
  obtain ⟨imports, exports⟩ := Forest.isLocal_append.1 h.unmarked
  refine Forest.isLocal_append.2 ⟨Forest.isLocal_append.2 ⟨imports, fun x hx => ?_⟩, exports⟩
  obtain ⟨c, hc, hx⟩ := preorder_map_toNode hx
  have steady := h.components c hc
  have wf := h.table.component (h.table.mem_written.1 hc).1
  rcases hx with rfl | hx
  · obtain ⟨e, tag, -⟩ := steady.tag
    exact ⟨by simp [tag], steady.unmarked⟩
  · rw [Component.children_toNode, Forest.preorder_append, List.mem_append] at hx
    rcases hx with hx | hx
    · rw [Forest.preorder_eq_flatMap, List.mem_flatMap] at hx
      obtain ⟨n, hn, hx⟩ := hx
      obtain ⟨g, hg, rfl⟩ := List.mem_map.1 hn
      exact (wf.fields g (List.mem_filter.1 hg).1).2 x (by simpa [Forest.preorder] using hx)
    · exact wf.items.2 x hx

theorem combined_schema : combined [f.schema] = f.body := by
  rw [schema_eq h.kind]
  simp [combined, rootContent, Node.branch, Forest.liftInherited_of_isLocal h.isLocal_body]

theorem isDeclaration_imports : ∀ n ∈ f.imports, isDeclaration n.data = true := by
  intro n hn
  have := h.imports n hn
  cases data : n.data <;> simp_all [Tag.category, isDeclaration]

theorem isDeclaration_exports : ∀ n ∈ f.exports, isDeclaration n.data = true := by
  intro n hn
  have := h.exports n hn
  cases data : n.data <;> simp_all [Tag.category, isDeclaration]

theorem contentPaths_body : Address.contentPaths f.body =
    Forest.pathsFrom (Forest.size f.imports) (f.written.map Component.toNode) := by
  have plain := fun x hx => (h.of_mem_preorder (x := x) hx).1
  rw [Address.contentPaths, Forest.paths, body, Forest.pathsFrom_append, Forest.pathsFrom_append,
    List.filter_append, List.filter_append, filter_isContent_declared h.isDeclaration_imports,
    filter_isContent_declared h.isDeclaration_exports, filter_isContent_plain plain]
  simp

theorem declarations_body :
    declarations ((Forest.paths f.body).filterMap declarationPath?) =
      .ok (f.imports ++ f.exports) := by
  have plain := fun x hx => (h.of_mem_preorder (x := x) hx).1
  have faultless : ∀ p ∈ Forest.paths f.body, Path.fault? Tag.isWrapper p = none := by
    intro p hp
    obtain ⟨ended, short⟩ := Forest.ended_of_fault? h.faultless p hp
    exact Path.fault?_eq_none (by omega) ended
  rw [Forest.paths, body, Forest.pathsFrom_append, Forest.pathsFrom_append] at faultless ⊢
  rw [List.filterMap_append, List.filterMap_append,
    filterMap_declarationPath?_declared h.isDeclaration_imports,
    filterMap_declarationPath?_declared h.isDeclaration_exports,
    filterMap_declarationPath?_plain plain, List.append_nil]
  have later := Forest.size_le_of_sublist
    (List.sublist_append_left f.imports (f.written.map Component.toNode))
  refine declarations_of_settled h.settled (by omega) fun p hp => ?_
  refine faultless p ?_
  simp only [List.mem_append] at hp ⊢
  tauto

theorem fits_body : Forest.Fits none f.body := by
  have accepted : ∀ t ∈ [f.schema], Forest.documentFault? t = none := by simpa using h.accepted
  have free : ∀ t ∈ [f.schema], Forest.IsEditFree t := by simpa using h.free
  have fits := fits_combined accepted free (by rw [h.combined_schema]; exact h.faultless)
  rwa [h.combined_schema] at fits

theorem areAccepted_body : Address.AreAccepted (Address.contentPaths f.body) := by
  have accepted : ∀ t ∈ [f.schema], Forest.documentFault? t = none := by simpa using h.accepted
  have := Address.areAccepted_contentPaths accepted
  rwa [h.combined_schema] at this

/-- The paths of a written component make it again. -/
theorem componentOf_written (hc : c ∈ f.written) :
    componentOf (Address.contentPaths f.body) c.kind c.key = .ok (some { c with origin := none }) := by
  have steady := h.components c hc
  obtain ⟨before, after, split⟩ := List.append_of_mem hc
  have apart := (h.table.pairwise_components h.grouped).filter (fun c => !c.isElided)
  have accepted := h.areAccepted_body
  have hdocs := Address.areContent_contentPaths h.fits_body
  have all : f.written.Pairwise _ := apart
  rw [split, List.pairwise_append, List.pairwise_cons] at all
  obtain ⟨-, ⟨later, -⟩, earlier⟩ := all
  let a : Address := ⟨c.kind, c.key, .name⟩
  have nests : ∀ p ∈ Address.contentPaths f.body, p.Pairwise Path.Nests := fun p hp =>
    accepted.nests hp
  have docs := h.contentPaths_body
  rw [split] at docs
  rw [docs] at nests
  obtain ⟨k, k', view, inside⟩ := Address.view_components (a := a) steady rfl rfl nests
  rw [← docs] at view
  have other {d : Component} (hd : d ∈ before ++ after) : a.isTarget d.tag = false := by
    have written : d ∈ f.written := by
      rw [split]
      rcases List.mem_append.1 hd with hd | hd <;> simp [hd]
    rw [← Bool.not_eq_true, (h.components d written).isTarget_iff]
    rintro ⟨-, key⟩
    rcases List.mem_append.1 hd with hd | hd
    · exact (earlier d hd c List.mem_cons_self).1 key
    · exact (later d hd).1 key.symm
  have steadies : ∀ d ∈ before ++ after, d.IsSteady := by
    intro d hd
    refine h.components d ?_
    rw [split]
    rcases List.mem_append.1 hd with hd | hd <;> simp [hd]
  have refer {o : Path Tag} {l : List Component} {first : Nat} (sub : ∀ d ∈ l, d ∈ before ++ after)
      (ho : o ∈ a.view (Forest.pathsFrom first (l.map Component.toNode))) :=
    Address.refers_of_mem_view (fun d hd => steadies d (sub d hd)) (fun d hd => other (sub d hd)) ho
  refine steady.componentOf (a := a) rfl rfl hdocs (areApart_contentPaths _)
    (Address.areOwned_view accepted) inside ⟨view, ?_, ?_⟩
  · intro o ho
    rcases List.mem_append.1 ho with ho | ho
    · exact (refer (fun d hd => List.mem_append_left _ hd) ho).1
    · exact (refer (fun d hd => List.mem_append_right _ hd) ho).1
  · intro o ho s hs
    obtain ⟨⟨s', rfl, target, bare, -⟩, d, hd, nested⟩ :=
      refer (fun d hd => List.mem_append_right _ hd) ho
    obtain rfl := List.mem_singleton.1 hs
    exact steady.eq_tag rfl rfl target bare (nested s hs) (later d hd).2

theorem componentOf_elided (kind : EntityKind) {key : String} (others : ∀ c ∈ f.written, c.key ≠ key) :
    componentOf (Address.contentPaths f.body) kind key = .ok none ∨
      ∃ e : Entity, e.kind = kind ∧ e.key = key ∧
        componentOf (Address.contentPaths f.body) kind key =
          .ok (some (Component.ofEntity e)) := by
  let a : Address := ⟨kind, key, .name⟩
  have hdocs := Address.areContent_contentPaths h.fits_body
  have refs : ∀ o ∈ a.view (Address.contentPaths f.body), a.Refers o := by
    intro o ho
    rw [h.contentPaths_body] at ho
    refine (Address.refers_of_mem_view h.components (fun c hc => ?_) ho).1
    rw [← Bool.not_eq_true, (h.components c hc).isTarget_iff]
    exact fun same => others c hc same.2
  by_cases seen : a.view (Address.contentPaths f.body) = []
  · refine .inl ?_
    have none : List.filterMap (ownedPath? kind key) (Address.contentPaths f.body) = [] := seen
    simp [componentOf, none, pure, Except.pure]
  · exact .inr (Component.componentOf_of_references hdocs (areApart_contentPaths _)
      (Address.areOwned_view h.areAccepted_body) seen refs)

theorem imported_eq : List.flatMap importedBy (f.imports ++ f.exports) =
    List.flatMap importedBy f.imports := by
  have none : List.flatMap importedBy f.exports = [] := by
    refine List.flatMap_eq_nil_iff.2 fun n hn => ?_
    have := h.exports n hn
    cases data : n.data <;> simp_all [Tag.category, importedBy]
  rw [List.flatMap_append, none, List.append_nil]

/-- A component that is added again is found again. -/
theorem addComponent_renewed {form : Form} (found : f.component? k = some c)
    (new : form.component? k = none) :
    ∃ d, c.IsRenewed d ∧ addComponent (Address.contentPaths f.body)
      (List.flatMap importedBy (f.imports ++ f.exports)) form k c.kind = .ok (form.put d) := by
  have origin := h.origins k c found
  obtain rfl := (h.table.component found).key_eq
  rw [h.imported_eq]
  cases elided : c.isElided with
  | false =>
    have hc : c ∈ f.written := h.table.mem_written.2 ⟨found, elided⟩
    refine ⟨c, ⟨rfl, rfl, rfl, fun _ => rfl, by simp [elided]⟩, ?_⟩
    rw [addComponent, h.componentOf_written hc]
    simp only [bind, Except.bind]
    rw [← origin]
    exact insert_of_new new
  | true =>
    have covered : c.origin.isSome = true := by
      rw [Component.isElided, Bool.and_eq_true] at elided
      exact elided.1
    have others : ∀ d ∈ f.written, d.key ≠ c.key := by
      intro d hd same
      obtain ⟨own, written⟩ := h.table.mem_written.1 hd
      rw [same, found, Option.some.injEq] at own
      simp [own, written] at elided
    have empty (e : Entity) (kind : e.kind = c.kind) (own : e.key = c.key) :
        c.IsRenewed { Component.ofEntity e with origin := c.origin } := by
      refine ⟨own, kind, rfl, by simp [elided], fun _ => ?_⟩
      rw [Component.isElided, Component.isEmpty_ofEntity, Bool.and_true]
      exact covered
    have insert (e : Entity) (own : e.key = c.key) :
        form.insert { Component.ofEntity e with origin := c.origin } =
          .ok (form.put { Component.ofEntity e with origin := c.origin }) :=
      insert_of_new (show form.component? e.key = none from own ▸ new)
    rcases h.componentOf_elided c.kind others with none | ⟨e, kind, own, made⟩
    · rw [origin, Option.isSome_map] at covered
      obtain ⟨x, source⟩ := Option.isSome_iff_exists.1 covered
      have own : x.entity.key = c.key := by simpa using List.find?_some source
      have kind : x.entity.kind = c.kind := by
        have known := h.declared x (List.mem_of_find?_eq_some source)
        rw [own, kind?, found] at known
        exact (Option.some.inj known).symm
      refine ⟨_, empty x.entity kind own, ?_⟩
      rw [addComponent, none, source]
      simp only [bind, Except.bind]
      rw [← insert x.entity own, origin, source]
      rfl
    · refine ⟨_, empty e kind own, ?_⟩
      rw [addComponent, made]
      simp only [bind, Except.bind]
      rw [← origin]
      exact insert e own

/-- The components of an index are all found again, in the order of the index. -/
theorem addAll_renewed {index : KeyIndex} (known : ∀ x ∈ index, f.kind? x.1 = some x.2)
    (once : IsIndex index) {form : Form} (new : ∀ x ∈ index, form.component? x.1 = none) :
    ∃ g, index.foldlM (fun form x => addComponent (Address.contentPaths f.body)
          (List.flatMap importedBy (f.imports ++ f.exports)) form x.1 x.2) form = .ok g ∧
      g = { form with byKey := g.byKey, order := form.order ++ index.map Prod.fst } ∧
      (∀ k ∈ index.map Prod.fst, ∃ c d, f.component? k = some c ∧ g.component? k = some d ∧
        c.IsRenewed d) ∧
      ∀ k ∉ index.map Prod.fst, g.component? k = form.component? k := by
  induction index generalizing form with
  | nil => exact ⟨form, rfl, by simp, by simp, by simp⟩
  | cons x index ih =>
    obtain ⟨k, kind⟩ := x
    obtain ⟨own, rest⟩ := List.forall_mem_cons.1 known
    obtain ⟨absent, apart⟩ := List.nodup_cons.1 (show (List.map Prod.fst _).Nodup from once)
    obtain ⟨fresh, later⟩ := List.forall_mem_cons.1 new
    obtain ⟨c, found, rfl⟩ := Option.map_eq_some_iff.1 own
    obtain ⟨d, renewed, added⟩ := h.addComponent_renewed found fresh
    have key : d.key = k := renewed.key.trans (h.table.component found).key_eq
    have put : ∀ k', (form.put d).component? k' = if k' = k then some d else form.component? k' :=
      key ▸ form.component?_put d
    have new : ∀ x ∈ index, (form.put d).component? x.1 = none := by
      intro x hx
      rw [put, if_neg, later x hx]
      exact fun same => absent (List.mem_map.2 ⟨x, hx, same⟩)
    obtain ⟨g, all, same, inside, beside⟩ := ih rest apart new
    refine ⟨g, ?_, ?_, ?_, ?_⟩
    · rw [List.foldlM_cons]
      simp only [added]
      exact all
    · have order : (form.put d).order = form.order ++ [k] := by
        simp [Form.put, key, fresh]
      rw [same, order]
      simp [Form.put]
    · intro k' hk'
      rcases List.mem_cons.1 hk' with rfl | hk'
      · refine ⟨c, d, found, ?_, renewed⟩
        rw [beside _ absent, put, if_pos rfl]
      · exact inside k' hk'
    · intro k' hk'
      rw [List.map_cons, List.mem_cons, not_or] at hk'
      obtain ⟨other, hk'⟩ := hk'
      rw [beside k' hk', put, if_neg other]

theorem exists_entity (found : f.component? k = some c) :
    (∃ s ∈ (Address.contentPaths f.body).flatten, ∃ e, s.data.entity? = some e ∧ e.key = k) ∨
      ∃ x ∈ List.flatMap importedBy f.imports, x.entity.key = k := by
  obtain rfl := (h.table.component found).key_eq
  cases elided : c.isElided with
  | false =>
    have hc : c ∈ f.written := h.table.mem_written.2 ⟨found, elided⟩
    obtain ⟨e, tag, -, key, -⟩ := (h.components c hc).tag
    have shown : c.toNode ∈ f.written.map Component.toNode := List.mem_map_of_mem hc
    obtain ⟨p, hp, s, hs, same⟩ := Forest.exists_path_of_mem_preorder
      (Forest.mem_preorder_of_mem shown) (Forest.size f.imports)
    have data : s.data = c.toNode.data := (Prod.mk.inj same).1
    refine .inl ⟨s, ?_, e, ?_, key⟩
    · rw [h.contentPaths_body]
      exact List.mem_flatten.2 ⟨p, hp, hs⟩
    · rw [data, show c.toNode.data = c.tag from rfl, tag]
      rfl
  | true =>
    rw [Component.isElided, Bool.and_eq_true, h.origins _ _ found, Option.isSome_map] at elided
    obtain ⟨x, source⟩ := Option.isSome_iff_exists.1 elided.1
    exact .inr ⟨x, List.mem_of_find?_eq_some source, by simpa using List.find?_some source⟩

/-- The entities that the document of the form names, and then those that it imports. -/
theorem exists_index : ∃ seen index,
    ((Address.contentPaths f.body).flatten.filterMap (fun s => s.data.entity?)).foldlM
      observe [] = .ok seen ∧
    ((List.flatMap importedBy (f.imports ++ f.exports)).map Imported.entity).foldlM
      observe seen = .ok index ∧
    (∀ x ∈ index, f.kind? x.1 = some x.2) ∧ IsIndex index ∧
    ∀ k, k ∈ index.map Prod.fst ↔ k ∈ f.order := by
  have met : ∀ e ∈ (Address.contentPaths f.body).flatten.filterMap (fun s => s.data.entity?),
      f.kind? e.key = some e.kind := by
    intro e he
    obtain ⟨s, hs, entity⟩ := List.mem_filterMap.1 he
    obtain ⟨p, hp, hs⟩ := List.mem_flatten.1 hs
    rw [h.contentPaths_body] at hp
    refine (h.of_mem_preorder (Forest.mem_preorder_of_mem_path hp hs)).2 e ?_
    revert entity
    cases s.data <;> simp [Tag.entity?]
  have covered : ∀ e ∈ (List.flatMap importedBy (f.imports ++ f.exports)).map Imported.entity,
      f.kind? e.key = some e.kind := by
    rw [h.imported_eq]
    intro e he
    obtain ⟨x, hx, rfl⟩ := List.mem_map.1 he
    exact h.declared x hx
  obtain ⟨seen, noted, known⟩ := exists_foldlM_observe f.kind? met
    (show ∀ x ∈ ([] : KeyIndex), f.kind? x.1 = some x.2 by simp)
  obtain ⟨index, noted', known⟩ := exists_foldlM_observe f.kind? covered known
  obtain ⟨once, ofContent⟩ := foldlM_observe noted List.nodup_nil
  obtain ⟨once, ofImports⟩ := foldlM_observe noted' once
  refine ⟨seen, index, noted, noted', known, once, fun k => ?_⟩
  rw [h.table.mem_order_iff]
  constructor
  · intro hk
    obtain ⟨x, hx, rfl⟩ := List.mem_map.1 hk
    obtain ⟨c, found, -⟩ := Option.map_eq_some_iff.1 (known x hx)
    simp [found]
  · intro some
    obtain ⟨c, found⟩ := Option.isSome_iff_exists.1 some
    rcases h.exists_entity found with ⟨s, hs, e, entity, rfl⟩ | ⟨x, hx, rfl⟩
    · exact List.mem_map_of_mem (f := Prod.fst) ((ofImports (e.key, e.kind)).2 (.inl
        ((ofContent _).2 (.inr ⟨e, List.mem_filterMap.2 ⟨s, hs, entity⟩, rfl⟩))))
    · refine List.mem_map_of_mem (f := Prod.fst)
        ((ofImports (x.entity.key, x.entity.kind)).2 (.inr ⟨x.entity, ?_, rfl⟩))
      rw [h.imported_eq]
      exact List.mem_map_of_mem hx

theorem filter_imports : List.filter (fun n : Node Tag => n.data.category = .imported)
    (f.imports ++ f.exports) = f.imports := by
  rw [List.filter_append, List.filter_eq_self.2 fun n hn => by simp [h.imports n hn],
    List.filter_eq_nil_iff.2 fun n hn => by simp [h.exports n hn], List.append_nil]

theorem filter_exports : List.filter (fun n : Node Tag => n.data.category = .exported)
    (f.imports ++ f.exports) = f.exports := by
  rw [List.filter_append, List.filter_eq_nil_iff.2 fun n hn => by simp [h.imports n hn],
    List.filter_eq_self.2 fun n hn => by simp [h.exports n hn], List.nil_append]

/-- What standardizing the document does once the keys are noted. -/
theorem standardize_schema {seen index : KeyIndex}
    (noted : ((Address.contentPaths f.body).flatten.filterMap (fun s => s.data.entity?)).foldlM
      observe [] = .ok seen)
    (noted' : ((List.flatMap importedBy (f.imports ++ f.exports)).map Imported.entity).foldlM
      observe seen = .ok index) :
    standardize [f.schema] = (ordered index).foldlM (fun form x =>
        addComponent (Address.contentPaths f.body)
          (List.flatMap importedBy (f.imports ++ f.exports)) form x.1 x.2)
      { key := f.key, kind := .asset, imports := f.imports, exports := f.exports } := by
  have accepted : validateAll [f.schema] = .ok () := by
    simp [validateAll, h.accepted]
  have about : container [f.schema] = .ok (f.key, .asset) := by
    simp [container, schema_eq h.kind, Node.branch]
  have flat : Forest.worldPaths f.body = .ok (Forest.paths f.body) := by
    have faultless : Forest.fault? worldRules.isWrapper f.body = none := h.faultless
    rw [Forest.worldPaths, WorldOutline.ofForest, Outline.ofForest, faultless]
  have content : (Forest.paths f.body).filter (fun p => (declarationPath? p).isNone) =
      Address.contentPaths f.body :=
    List.filter_congr fun p _ => declarationPath?_isNone p
  have stripped : Forest.stripInherited (f.imports ++ f.exports) = f.imports ++ f.exports :=
    Forest.stripInherited_of_isLocal h.unmarked
  rw [standardize, h.combined_schema]
  simp only [accepted, about, flat, content, noted, h.declarations_body, noted', stripped,
    h.filter_imports, h.filter_exports, bind, Except.bind]

theorem restores : ∃ g, standardize [f.schema] = .ok g ∧ f.Restores g := by
  obtain ⟨seen, index, noted, noted', known, once, keys⟩ := h.exists_index
  have perm : (ordered index).Perm index := List.mergeSort_perm _ _
  have once : IsIndex (ordered index) := (perm.map Prod.fst).nodup_iff.2 once
  have keys : ∀ k, k ∈ (ordered index).map Prod.fst ↔ k ∈ f.order := fun k =>
    (perm.map Prod.fst).mem_iff.trans (keys k)
  let start : Form := { key := f.key, kind := .asset, imports := f.imports, exports := f.exports }
  obtain ⟨g, added, same, inside, beside⟩ := h.addAll_renewed
    (fun x hx => known x (perm.mem_iff.1 hx)) once
    (show ∀ x ∈ ordered index, start.component? x.1 = none from
      fun x _ => by simp [start, Form.component?])
  have order : g.order = (ordered index).map Prod.fst := by
    rw [same]
    rfl
  refine ⟨g, (h.standardize_schema noted noted').trans added,
    by rw [same], by rw [same, h.kind], by rw [same], by rw [same], ?_, fun k => ?_⟩
  · rw [order]
    exact (List.perm_ext_iff_of_nodup once h.table.once).2 keys
  · cases found : f.component? k with
    | none =>
      have absent : k ∉ (ordered index).map Prod.fst := by
        rw [keys, h.table.mem_order_iff, found]
        simp
      rw [beside k absent]
      exact .none
    | some c =>
      have listed : k ∈ (ordered index).map Prod.fst := by
        rw [keys, h.table.mem_order_iff, found]
        rfl
      obtain ⟨c', d, found', found_, renewed⟩ := inside k listed
      obtain rfl := Option.some.inj (found.symm.trans found')
      rw [found_]
      exact .some renewed

end IsSteady

end Form

end WorldMarkup
