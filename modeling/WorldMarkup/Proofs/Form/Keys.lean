import WorldMarkup.Proofs.Form.Names

/-!
The keys of a form that comes of documents. Main statements: adding components from an index gives
each key of the index a component of its kind, and no other key; so the keys of the form are those
of the entities that the documents name, each once and kind by kind.
-/

set_option autoImplicit false
set_option relaxedAutoImplicit false

namespace WorldMarkup

namespace Standardize

/-! ### Components from an index -/

section Components

variable {content : List (Path Tag)} {imported : List Imported} {form out : Form}

theorem addComponent_of_known (lifted : Address.AreLifted content) {key : String}
    {kind : EntityKind} (kinds : ∀ x ∈ imported, x.entity.key = key → x.entity.kind = kind)
    (known : (∃ p ∈ content, ∃ s ∈ p, ∃ e, s.data.entity? = some e ∧ (key, kind) = (e.key, e.kind)) ∨
      ∃ x ∈ imported, (key, kind) = (x.entity.key, x.entity.kind))
    (h : addComponent content imported form key kind = .ok out) :
    ∃ c : Component, c.key = key ∧ c.kind = kind ∧ out = form.put c := by
  rcases wellFormed_addComponent lifted kinds h with ⟨-, none, other⟩ | ⟨c, wf, hkind, put⟩
  · exfalso
    rcases known with ⟨p, hp, s, hs, e, he, same⟩ | ⟨x, hx, same⟩
    · obtain ⟨rfl, rfl⟩ := Prod.mk.inj same
      have unseen := List.filterMap_eq_nil_iff.1 (view_of_componentOf_none none) p hp
      have strange := (Address.ownedPath?_eq_none (a := ⟨e.kind, e.key, .name⟩)).1 unseen s hs
      have target : s.data = .entity e := by
        cases hd : s.data <;> simp_all [Tag.entity?]
      simp [Address.isTarget, target, Tag.isEntityOf] at strange
    · exact other x hx (Prod.mk.inj same).1.symm
  · exact ⟨c, wf.key_eq, hkind, put⟩

/-- Adding the components of an index gives each of its keys a component of its kind, and leaves
other keys as they were. -/
theorem kind_addAll (lifted : Address.AreLifted content) {index : KeyIndex} (once : IsIndex index)
    (kinds : ∀ x ∈ imported, ∀ y ∈ index, x.entity.key = y.1 → x.entity.kind = y.2)
    (known : ∀ y ∈ index,
      (∃ p ∈ content, ∃ s ∈ p, ∃ e, s.data.entity? = some e ∧ y = (e.key, e.kind)) ∨
        ∃ x ∈ imported, y = (x.entity.key, x.entity.kind))
    (h : index.foldlM (fun form x => addComponent content imported form x.1 x.2) form = .ok out)
    (k : String) (kind : EntityKind) :
    (out.component? k).map Component.kind = some kind ↔
      (k, kind) ∈ index ∨
        k ∉ index.map Prod.fst ∧ (form.component? k).map Component.kind = some kind := by
  induction index generalizing form with
  | nil =>
    obtain rfl := Except.ok.inj h
    simp
  | cons y index ih =>
    rcases y with ⟨key, own⟩
    rw [List.foldlM_cons] at h
    obtain ⟨next, hnext, h⟩ := Except.bind_eq_ok.1 h
    obtain ⟨new, others⟩ := List.nodup_cons.1 once
    obtain ⟨c, rfl, rfl, rfl⟩ := addComponent_of_known lifted
      (fun x hx => kinds x hx _ List.mem_cons_self) (known _ List.mem_cons_self) hnext
    rw [ih others (fun x hx z hz => kinds x hx z (List.mem_cons_of_mem _ hz))
      (fun z hz => known z (List.mem_cons_of_mem _ hz)) h, Form.component?_put]
    by_cases same : k = c.key
    · subst same
      have new : c.key ∉ index.map Prod.fst := new
      have absent : (c.key, kind) ∉ index := fun hmem => new (List.mem_map.2 ⟨_, hmem, rfl⟩)
      simp [absent, new, eq_comm]
    · simp [same]

end Components

/-! ### What is imported -/

theorem exists_importedBy {declared : Forest Tag} {e : Entity} :
    (∃ y ∈ List.flatMap importedBy declared, y.entity.kind = e.kind ∧ y.entity.key = e.key) ↔
      ∃ source, Forest.HasTrail [.imported source, .entity e] declared := by
  simp only [Forest.HasTrail, and_true, Tag.kin_imported, Tag.kin_entity, List.mem_flatMap]
  constructor
  · rintro ⟨y, ⟨n, hn, hy⟩, same⟩
    unfold importedBy at hy
    split at hy
    · rename_i source own
      obtain ⟨m, hm, hy⟩ := List.mem_filterMap.1 hy
      obtain ⟨x, hx, rfl⟩ := Option.map_eq_some_iff.1 hy
      exact ⟨source, n, hn, own, m, hm, x, hx, same⟩
    · simp at hy
  · rintro ⟨source, n, hn, own, m, hm, x, hx, same⟩
    refine ⟨⟨x, { asset := source, key := x.source.getD x.key }⟩, ⟨n, hn, ?_⟩, same⟩
    simp only [importedBy, own]
    exact List.mem_filterMap.2 ⟨m, hm, by rw [hx]; rfl⟩

theorem exists_importedBy_declarations {docs : List (Path Tag)} (agree : Path.Agree docs)
    {declared : Forest Tag} (h : declarations (docs.filterMap declarationPath?) = .ok declared)
    {e : Entity} :
    (∃ y ∈ List.flatMap importedBy declared, y.entity.kind = e.kind ∧ y.entity.key = e.key) ↔
      ∃ p ∈ docs, Path.Imports e p := by
  have grown (source : String) : Forest.HasTrail [.imported source, .entity e] declared ↔
      ∃ q ∈ docs.filterMap declarationPath?, Path.HasTrail [.imported source, .entity e] q := by
    unfold declarations at h
    split at h
    · rename_i none
      obtain rfl := Except.ok.inj h
      simp [List.isEmpty_iff.1 none, Forest.not_hasTrail_nil]
    · rw [Alignment.regrow_eq_ok h]
      exact Forest.hasTrail_ofPaths (agree_declarationPaths agree)
  rw [exists_importedBy]
  simp only [grown, List.mem_filterMap, Path.Imports, Option.mem_def]
  constructor
  · rintro ⟨source, q, ⟨p, hp, hq⟩, follows⟩
    exact ⟨p, hp, q, hq, source, follows⟩
  · rintro ⟨p, hp, q, hq, source, follows⟩
    exact ⟨source, q, ⟨p, hp, hq⟩, follows⟩

/-! ### The entities that documents name -/

/-- The entities that documents name: those of each root that ends anywhere outside of imports and
exports, and those that imports hold. -/
def named (inputs : List (Forest Tag)) : List Entity :=
  inputs.flatMap (fun t => List.flatMap
      (fun n => if Forest.hasContent (rootContent n) then n.entities else []) t) ++
    inputs.flatMap Forest.imports

variable {inputs : List (Forest Tag)} {e : Entity}

theorem mem_named :
    e ∈ named inputs ↔
      (∃ t ∈ inputs, ∃ n ∈ t, Forest.hasContent (rootContent n) = true ∧ e ∈ n.entities) ∨
        ∃ t ∈ inputs, e ∈ Forest.imports t := by
  simp only [named, List.mem_append, List.mem_flatMap, List.mem_ite_nil_right]

theorem mem_contentPaths {t : Forest Tag} {p : Path Tag} :
    p ∈ Address.contentPaths t ↔ p ∈ Forest.paths t ∧ p.IsContent := by
  simp [Address.contentPaths]

theorem exists_contentPath_iff (accepted : ∀ t ∈ inputs, Forest.documentFault? t = none)
    {key : String} {kind : EntityKind} :
    (∃ p ∈ Address.contentPaths (combined inputs), ∃ s ∈ p, ∃ e, s.data.entity? = some e ∧
        (key, kind) = (e.key, e.kind)) ↔
      ∃ e, (∃ t ∈ inputs, ∃ n ∈ t, Forest.hasContent (rootContent n) = true ∧ e ∈ n.entities) ∧
        e.key = key ∧ e.kind = kind := by
  simp only [← exists_names_combined accepted, Path.Names, mem_contentPaths]
  constructor
  · rintro ⟨p, ⟨hp, content⟩, s, hs, e, he, same⟩
    obtain ⟨rfl, rfl⟩ := Prod.mk.inj same
    exact ⟨e, ⟨p, hp, content, s, hs, he⟩, rfl, rfl⟩
  · rintro ⟨e, ⟨p, hp, content, s, hs, he⟩, rfl, rfl⟩
    exact ⟨p, ⟨hp, content⟩, s, hs, e, he, rfl⟩

theorem exists_importedBy_combined (accepted : ∀ t ∈ inputs, Forest.documentFault? t = none)
    {declared : Forest Tag}
    (grown : declarations ((Forest.paths (combined inputs)).filterMap declarationPath?) =
      .ok declared) {key : String} {kind : EntityKind} :
    (∃ y ∈ List.flatMap importedBy declared, (key, kind) = (y.entity.key, y.entity.kind)) ↔
      ∃ e, (∃ t ∈ inputs, e ∈ Forest.imports t) ∧ e.key = key ∧ e.kind = kind := by
  have agree : Path.Agree (Forest.paths (combined inputs)) := Forest.agree_pathsFrom 0 _
  have imports := (exists_importedBy_declarations (e := .ofKind kind key) agree grown).trans
    (exists_imports_combined accepted)
  simp only [Entity.kind_ofKind, Entity.key_ofKind] at imports
  constructor
  · rintro ⟨y, hy, same⟩
    obtain ⟨rfl, rfl⟩ := Prod.mk.inj same
    obtain ⟨t, ht, x, hx, hkind, hkey⟩ := imports.1 ⟨y, hy, rfl, rfl⟩
    exact ⟨x, ⟨t, ht, hx⟩, hkey, hkind⟩
  · rintro ⟨x, ⟨t, ht, hx⟩, hkey, hkind⟩
    obtain ⟨y, hy, hkind, hkey⟩ := imports.2 ⟨t, ht, x, hx, hkind, hkey⟩
    exact ⟨y, hy, by rw [hkind, hkey]⟩

end Standardize

namespace Form

open Standardize

variable {inputs : List (Forest Tag)} {f : Form}

/-- A key of a form that comes of documents has a component of each kind that the documents name it
with. -/
theorem kind_standardize (done : standardize inputs = .ok f) (key : String) (kind : EntityKind) :
    (f.component? key).map Component.kind = some kind ↔
      ∃ e ∈ named inputs, e.key = key ∧ e.kind = kind := by
  obtain ⟨accepted, -, _, _, declared, index, -, grown, once, -, known, h⟩ := standardize_eq_ok done
  have lifted : Address.AreLifted (Address.contentPaths (combined inputs)) :=
    ((stands_combined accepted).areStanding 0).of_subset (fun p hp => (List.mem_filter.1 hp).1)
  have kinds := once.kind_of_imported (fun x hx => (known _).2 (.inr ⟨x, hx, rfl⟩))
  have added := kind_addAll lifted once kinds (fun y hy => (known y).1 hy) h key kind
  have fresh (root : ContainerKind) (name : String) (imports exports : Forest Tag) :
      Form.component? { key := name, kind := root, imports, exports } key = none := rfl
  rw [fresh] at added
  simp only [Option.map_none, reduceCtorEq, and_false, or_false] at added
  rw [added, known, exists_contentPath_iff accepted, exists_importedBy_combined accepted grown]
  simp only [mem_named, or_and_right, exists_or]

/-- The keys of a form that comes of documents are those that the documents name outside of imports
and exports, in roots that end anywhere but there, and those that imports hold. Each stands once,
kind by kind, and has a component of the kind that all documents name it with. -/
theorem order_standardize (done : standardize inputs = .ok f) :
    f.order.Nodup ∧ f.IsGrouped ∧
      (∀ key, key ∈ f.order ↔ ∃ e ∈ named inputs, e.key = key) ∧
      (∀ e ∈ named inputs, ∃ c, f.component? e.key = some c ∧ c.key = e.key ∧ c.kind = e.kind) ∧
      ∀ e ∈ named inputs, ∀ x ∈ named inputs, e.key = x.key → e.kind = x.kind := by
  have wf := wellFormed_standardize done
  have kinds := kind_standardize done
  refine ⟨wf.once, wf.grouped, fun key => ?_, fun e he => ?_, fun e he x hx same => ?_⟩
  · rw [wf.mem_order_iff, Option.isSome_iff_exists]
    constructor
    · rintro ⟨c, hc⟩
      obtain ⟨e, he, hkey, -⟩ := (kinds key c.kind).1 (by rw [hc]; rfl)
      exact ⟨e, he, hkey⟩
    · rintro ⟨e, he, hkey⟩
      obtain ⟨c, hc, -⟩ := Option.map_eq_some_iff.1 ((kinds key e.kind).2 ⟨e, he, hkey, rfl⟩)
      exact ⟨c, hc⟩
  · obtain ⟨c, hc, hkind⟩ := Option.map_eq_some_iff.1 ((kinds e.key e.kind).2 ⟨e, he, rfl, rfl⟩)
    exact ⟨c, hc, (wf.component hc).key_eq, hkind⟩
  · have own := (kinds e.key e.kind).2 ⟨e, he, rfl, rfl⟩
    have other := (kinds e.key x.kind).2 ⟨x, hx, same.symm, rfl⟩
    exact Option.some.inj (own.symm.trans other)

/-- A house with a hall it has from elsewhere, a cellar at night, and a guest and an attic that it
imports. -/
def houseWithGuest : List (Forest Tag) :=
  [[.branch (.asset "house")
    [.branch .inherited [.branch (.room "hall") [.leaf (.feature "door")]],
      .branch .conditional [.branch (.onCondition "night") [.leaf (.room "cellar")]],
      .branch (.imported "base")
        [.branch (Tag.character "tess") [.branch (.field .name) [.leaf (.text "Tess")]],
          .leaf (.room "attic")]]]]

theorem order_standardize_houseWithGuest :
    ∃ f, standardize houseWithGuest = .ok f ∧
      f.order = ["tess", "hall", "cellar", "attic", "door"] ∧
      (named houseWithGuest).map Entity.key = ["hall", "door", "cellar", "tess", "attic"] ∧
      f.order.Nodup ∧ f.IsGrouped ∧
      (∀ key, key ∈ f.order ↔ ∃ e ∈ named houseWithGuest, e.key = key) ∧
      (∀ e ∈ named houseWithGuest, ∃ c, f.component? e.key = some c ∧ c.key = e.key ∧
        c.kind = e.kind) ∧
      ∀ e ∈ named houseWithGuest, ∀ x ∈ named houseWithGuest, e.key = x.key → e.kind = x.kind := by
  have order : (standardize houseWithGuest).toOption.map Form.order =
      some ["tess", "hall", "cellar", "attic", "door"] := by
    cbv
  cases hf : standardize houseWithGuest with
  | error e => simp [hf, Except.toOption] at order
  | ok f =>
    refine ⟨f, rfl, by simpa [hf, Except.toOption] using order, ?_, order_standardize hf⟩
    decide

def characterOfImports : List (Forest Tag) :=
  [[⟨Tag.character "tess", { id := some "t1" },
    [.branch (.imported "base") [.leaf (.room "hall")]]⟩]]

/-- A character all of whose paths run through imports is left out of its own form, although it
stands in no import. -/
theorem order_standardize_characterOfImports :
    ∃ f, standardize characterOfImports = .ok f ∧ f.order = ["hall"] ∧
      ∃ t ∈ characterOfImports, ∃ e ∈ Forest.entities t,
        e.key = "tess" ∧ f.component? e.key = none := by
  have keys : (standardize characterOfImports).toOption.map
      (fun f => (f.order, (f.component? "tess").isSome)) = some (["hall"], false) := by
    cbv
  cases hf : standardize characterOfImports with
  | error e => simp [hf, Except.toOption] at keys
  | ok f =>
    obtain ⟨order, none⟩ : f.order = ["hall"] ∧ (f.component? "tess").isSome = false := by
      simpa [hf, Except.toOption] using keys
    refine ⟨f, rfl, order, _, List.mem_singleton_self _, .ofKind (.plain .character) "tess", ?_,
      rfl, by simpa using none⟩
    decide

end Form

end WorldMarkup
