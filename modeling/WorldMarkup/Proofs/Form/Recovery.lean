import WorldMarkup.Proofs.Form.Sound

/-!
The form of assets without edits and its document. Main statement: standardizing the document of
such a form finds the form again, all but the order of its keys.
-/

set_option autoImplicit false
set_option relaxedAutoImplicit false

namespace WorldMarkup

open Standardize

/-! ### Where components come from -/

namespace Standardize

variable {content : List (Path Tag)} {imported : List Imported} {form out : Form} {key : String}
  {kind : EntityKind}

/-- A component comes from the first import of its key. -/
theorem origin_addComponent
    (start : ∀ k c, form.component? k = some c →
      c.origin = (imported.find? (fun x => x.entity.key == k)).map Imported.origin)
    (lifted : Address.AreLifted content)
    (h : addComponent content imported form key kind = .ok out) :
    ∀ k c, out.component? k = some c →
      c.origin = (imported.find? (fun x => x.entity.key == k)).map Imported.origin := by
  intro k d found
  rw [addComponent] at h
  obtain ⟨made, hmade, h⟩ := Except.bind_eq_ok.1 h
  cases made with
  | some c =>
    obtain ⟨-, wf⟩ := wellFormed_componentOf lifted hmade
    rw [Form.component?_insert h, show c.key = key from wf.key_eq] at found
    split at found
    · rename_i own
      rw [← Option.some.inj found, own]
    · exact start k d found
  | none =>
    cases source : imported.find? (fun x => x.entity.key == key) with
    | none =>
      rw [source] at h
      obtain rfl := Except.ok.inj h
      exact start k d found
    | some x =>
      have own : x.entity.key = key := by simpa using List.find?_some source
      rw [source] at h
      rw [Form.component?_insert h, show (Component.ofEntity x.entity).key = key from own] at found
      split at found
      · rename_i same
        rw [← Option.some.inj found, same, source]
        rfl
      · exact start k d found

theorem origin_addAll {index : KeyIndex}
    (start : ∀ k c, form.component? k = some c →
      c.origin = (imported.find? (fun x => x.entity.key == k)).map Imported.origin)
    (lifted : Address.AreLifted content)
    (h : index.foldlM (fun form x => addComponent content imported form x.1 x.2) form = .ok out) :
    ∀ k c, out.component? k = some c →
      c.origin = (imported.find? (fun x => x.entity.key == k)).map Imported.origin := by
  induction index generalizing form with
  | nil =>
    obtain rfl := Except.ok.inj h
    exact start
  | cons y index ih =>
    rw [List.foldlM_cons] at h
    obtain ⟨next, hnext, h⟩ := Except.bind_eq_ok.1 h
    exact ih (origin_addComponent start lifted hnext) h

end Standardize

theorem Path.free_of_stands_plainly {p : Path Tag} : ∀ {above : Option Tag},
    Path.Stands (.under Tag.StandsPlainly) above p → ∀ s ∈ p, s.data.isEditing = false := by
  induction p with
  | nil => simp
  | cons s p ih => exact fun h => List.forall_mem_cons.2 ⟨h.1.1, ih h.2⟩

theorem Forest.faultAt?_of_succ {isWrapper : Tag → Bool} {t : Forest Tag} : ∀ {depth : Nat},
    Forest.faultAt? isWrapper (depth + 1) t = none → Forest.faultAt? isWrapper depth t = none := by
  induction t using Forest.induction with
  | nil => exact fun _ => rfl
  | cons d e cs rest hcs hrest =>
    intro depth h
    obtain ⟨own, beside⟩ := Option.or_eq_none_iff.1 h
    obtain ⟨low, filled, below⟩ := Node.fault?_eq_none.1 own
    exact Option.or_eq_none_iff.2
      ⟨Node.fault?_eq_none.2 ⟨by omega, filled, hcs below⟩, hrest beside⟩

theorem Tag.eq_imported {t : Tag} (h : t.category = .imported) :
    ∃ source, t = .imported source := by
  cases t <;> simp [category] at h
  exact ⟨_, rfl⟩

theorem Tag.eq_exported {t : Tag} (h : t.category = .exported) : t = .exported := by
  cases t <;> simp [category] at h
  rfl

theorem Forest.settled_declared {t u : Forest Tag} (ht : Forest.Settled worldRules t)
    (hu : Forest.Settled worldRules u) (imports : ∀ n ∈ t, n.data.category = .imported)
    (exports : ∀ n ∈ u, n.data.category = .exported) : Forest.Settled worldRules (t ++ u) := by
  have first := Forest.SettledAfter.inPlaceAfter (r := Growth.regrowth []) rfl ht
  have second := Forest.SettledAfter.inPlaceAfter (r := Growth.regrowth []) rfl hu
  refine Forest.InPlaceAfter.settledAfter (r := Growth.regrowth [])
    (inPlaceAfter_append.2 ⟨first, InPlace.beyond second fun n hn => ⟨?_, ?_⟩⟩)
  · refine Rules.finds_eq_false fun x hx _ _ => ?_
    obtain ⟨m, hm, rfl⟩ : ∃ m ∈ t, m.data = x := by simpa using hx
    obtain ⟨source, data⟩ := Tag.eq_imported (imports m hm)
    show m.data.same n.data = false
    rw [data, Tag.eq_exported (exports n hn)]
    rfl
  · exact Rules.outranked_eq_false rfl _ _

namespace Standardize

theorem importedBy_imports (declared : Forest Tag) :
    List.flatMap importedBy (List.filter (fun n => n.data.category = .imported)
      (Forest.stripInherited declared)) = List.flatMap importedBy declared := by
  induction declared with
  | nil => rfl
  | cons n rest ih =>
    obtain ⟨d, e, cs⟩ := n
    rw [Forest.stripInherited, List.flatMap_cons, ← ih]
    cases d with
    | imported source =>
      have own : importedBy (Node.stripInherited ⟨.imported source, e, cs⟩) =
          importedBy ⟨.imported source, e, cs⟩ := by
        simp only [Node.stripInherited, importedBy, Forest.stripInherited_eq_map,
          List.filterMap_map]
        exact List.filterMap_congr fun n _ => by cases n; rfl
      rw [← own]
      rfl
    | _ => rfl

end Standardize

/-- An entity that an index lists, as a reference tells it. -/
def Standardize.IsListed (index : KeyIndex) (e : Entity) : Prop :=
  e.withoutSource = e ∧ (e.key, e.kind) ∈ index

namespace Standardize

variable {inputs : List (Forest Tag)} {index : KeyIndex}

theorem areSteady_contentPaths (free : ∀ t ∈ inputs, Forest.IsEditFree t)
    (assets : ∀ t ∈ inputs, ∀ n ∈ t, ∃ key, n.data = .asset key)
    (accepted : ∀ t ∈ inputs, Forest.documentFault? t = none)
    (faultless : Forest.fault? Tag.isWrapper (combined inputs) = none)
    (listed : ∀ p ∈ Address.contentPaths (combined inputs), ∀ s ∈ p, ∀ e, s.data = .entity e →
      (e.key, e.kind) ∈ index) :
    Address.AreSteady (IsListed index) (Address.contentPaths (combined inputs)) := by
  have fits := fits_combined accepted free faultless
  have plain : Forest.Stands (.under Tag.StandsPlainly) none (combined inputs) :=
    Forest.stands_plainly_of_fits.1 (by simp) fits
  have path {p : Path Tag} (hp : p ∈ Address.contentPaths (combined inputs)) :
      p ∈ Forest.pathsFrom 0 (combined inputs) := (List.mem_filter.1 hp).1
  exact {
    content := Address.areContent_contentPaths fits
    accepted := Address.areAccepted_contentPaths accepted
    lawful := {
      toAreStanding := ((stands_lawfully_combined accepted assets).areStanding 0).of_subset
        fun p hp => path hp
      content := fun p hp => by simpa using (List.mem_filter.1 hp).2 }
    free := fun p hp => Path.free_of_stands_plainly (plain.pathsFrom (path hp))
    short := by
      intro p hp
      have := Forest.length_le_depth (path hp)
      have := depth_combined accepted assets
      omega
    ended := fun p hp => (Forest.ended_of_fault? faultless p (path hp)).1
    known := by
      intro p hp s hs e e' data kind key bare
      refine ⟨bare, ?_⟩
      rw [kind, key]
      exact listed p hp s hs e data }

theorem declarations_of_assets (free : ∀ t ∈ inputs, Forest.IsEditFree t)
    (assets : ∀ t ∈ inputs, ∀ n ∈ t, ∃ key, n.data = .asset key)
    (accepted : ∀ t ∈ inputs, Forest.documentFault? t = none)
    (faultless : Forest.fault? Tag.isWrapper (combined inputs) = none) {declared : Forest Tag}
    (grown : declarations ((Forest.paths (combined inputs)).filterMap declarationPath?) =
      .ok declared) :
    Forest.Stands Tag.standsLawfully (.content (.asset "")) (Forest.stripInherited declared) ∧
      Forest.Stands (.under Tag.StandsPlainly) none (Forest.stripInherited declared) ∧
      Forest.faultAt? Tag.isWrapper 1 (Forest.stripInherited declared) = none := by
  have lifted : Address.AreLifted (Forest.paths (combined inputs)) :=
    (stands_combined accepted).areStanding 0
  have plainly : Forest.Stands (.under Tag.StandsPlainly) none (combined inputs) :=
    Forest.stands_plainly_of_fits.1 (by simp) (fits_combined accepted free faultless)
  refine ⟨(stands_lawfully_declarations
      ((stands_lawfully_combined accepted assets).areStanding 0) grown).stripInherited,
    (stands_plainly_declarations lifted.agree
      (fun p hp => plainly.pathsFrom hp) grown).stripInherited,
    Forest.faultAt?_stripInherited (faultless_declarations lifted.agree (fun p hp => ?_)
      (fun p hp => (Forest.ended_of_fault? faultless p hp).1) grown)⟩
  have := Forest.length_le_depth hp
  have := depth_combined accepted assets
  omega

end Standardize

theorem accepted_of_asset {key : String} (named : key.isEmpty = false) {t : Forest Tag}
    (lawful : Forest.Stands Tag.standsLawfully (.content (.asset "")) t)
    (plain : Forest.Stands (.under Tag.StandsPlainly) none t)
    (faultless : Forest.faultAt? Tag.isWrapper 1 t = none) :
    Forest.documentFault? [.branch (.asset key) t] = none := by
  have own : (Tag.asset key).fault? none 0 = none := by
    simp [Tag.fault?, Tag.missing?, named, maxDepth]
  have inside : Forest.grammarFault? (some (Setting.below none (.asset key))) 1 t = none :=
    grammarFault?_of_stands (s := Setting.below none (.asset key)) lawful plain
      (by simp [Setting.below, Tag.frame]) (Forest.depth_of_faultAt? (by simp [maxDepth]) faultless)
  simpa [Forest.documentFault?, Node.branch, Tag.isContainer, Forest.grammarFault?,
    Node.grammarFault?, own] using inside

namespace Component

variable {c : Component} {known : Entity → Prop}

theorem isSound_ofEntity (e : Entity) : (ofEntity e).IsSound known where
  steady := isSteady_ofEntity e
  within := by simp [ofEntity, Forest.preorder]
  plain := by
    refine ⟨⟨rfl, by simp⟩, ?_⟩
    rw [← children_toNode, children_toNode_ofEntity]
    trivial

theorem IsSound.imported (h : c.IsSound known) (origin : Option ImportOrigin) :
    IsSound known { c with origin } where
  steady := ⟨h.steady.tag, h.steady.unmarked, h.steady.holds, h.steady.kept, h.steady.finished,
    h.steady.plain, h.steady.nested, h.steady.settled, h.steady.bare, h.steady.inPlace,
    h.steady.faultless⟩
  within := h.within
  plain := h.plain

end Component

namespace Form

variable {inputs : List (Forest Tag)} {f : Form}

theorem forall_mem_body {P : Node Tag → Prop} (declarations : ∀ n ∈ f.imports ++ f.exports, P n)
    (components : ∀ c ∈ f.written, P c.toNode) : ∀ n ∈ f.body, P n := by
  intro n hn
  simp only [body, List.mem_append, List.mem_map] at hn
  rcases hn with (hn | ⟨c, hc, rfl⟩) | hn
  · exact declarations n (List.mem_append_left _ hn)
  · exact components c hc
  · exact declarations n (List.mem_append_right _ hn)

theorem isSound_addAll {content : Forest Tag} {imported : List Imported} {index : KeyIndex}
    {form out : Form} (fits : Forest.Fits none content)
    (lifted : Address.AreLifted (Address.contentPaths content))
    (steady : Address.AreSteady (IsListed index) (Address.contentPaths content))
    (kinds : ∀ x ∈ imported, ∀ y ∈ index, x.entity.key = y.1 → x.entity.kind = y.2)
    (start : ∀ k c, form.component? k = some c → c.IsSound (IsListed index))
    (h : index.foldlM (fun form x =>
      addComponent (Address.contentPaths content) imported form x.1 x.2) form = .ok out) :
    ∀ k c, out.component? k = some c → c.IsSound (IsListed index) := by
  refine forall_component_addAll (P := fun _ c => c.IsSound (IsListed index)) kinds ?_ ?_ start h
  · intro kind key c origin made
    exact (isSound_componentOf fits lifted steady (fun e he => he.1) made).imported origin
  · exact fun x _ _ => (Component.isSound_ofEntity x.entity).imported _

theorem stands_body {known : Entity → Prop} {declared : Forest Tag}
    (sub : ∀ n ∈ f.imports ++ f.exports, n ∈ declared) (lawful : f.IsLawful)
    (written : ∀ c ∈ f.written, c.IsSound known)
    (lawfully : Forest.Stands Tag.standsLawfully (.content (.asset "")) declared)
    (plainly : Forest.Stands (.under Tag.StandsPlainly) none declared)
    (shallowly : Forest.faultAt? Tag.isWrapper 1 declared = none) :
    Forest.Stands Tag.standsLawfully (.content (.asset "")) f.body ∧
      Forest.Stands (.under Tag.StandsPlainly) none f.body ∧
      Forest.faultAt? Tag.isWrapper 1 f.body = none := by
  refine ⟨Forest.stands_iff.2 (forall_mem_body
      (fun n hn => Forest.stands_iff.1 lawfully n (sub n hn)) fun c hc => ?_),
    Forest.stands_iff.2 (forall_mem_body
      (fun n hn => Forest.stands_iff.1 plainly n (sub n hn)) fun c hc => (written c hc).plain),
    Forest.faultAt?_eq_none_iff.2 (forall_mem_body
      (fun n hn => Forest.faultAt?_eq_none_iff.1 shallowly n (sub n hn)) fun c hc => ?_)⟩
  · exact Forest.stands_iff.1 lawful.stands_components _ (List.mem_map_of_mem hc)
  · obtain ⟨e, tag, -⟩ := (written c hc).steady.tag
    exact Node.fault?_eq_none.2 ⟨by simp [maxDepth], fun _ => by rw [tag]; rfl,
      (written c hc).steady.faultless⟩

/-- The form of assets without edits is found again from its document. -/
theorem isSteady_standardize (free : ∀ t ∈ inputs, Forest.IsEditFree t)
    (assets : ∀ t ∈ inputs, ∀ n ∈ t, ∃ key, n.data = .asset key)
    (done : standardize inputs = .ok f) : f.IsSteady := by
  obtain ⟨⟨table, grouped⟩, -⟩ := isTable_standardize done
  obtain ⟨accepted, faultless, key, kind, declared, index, hcontainer, grown, once, -, known, h⟩ :=
    standardize_eq_ok done
  obtain ⟨rfl, named⟩ := container_of_assets accepted assets hcontainer
  have lifted : Address.AreLifted (Forest.paths (combined inputs)) :=
    (stands_combined accepted).areStanding 0
  have content : Address.AreLifted (Address.contentPaths (combined inputs)) :=
    lifted.of_subset fun p hp => (List.mem_filter.1 hp).1
  have steady : Address.AreSteady (IsListed index) (Address.contentPaths (combined inputs)) :=
    areSteady_contentPaths free assets accepted faultless fun p hp s hs e data =>
      (known _).2 (.inl ⟨p, hp, s, hs, e, by rw [data]; rfl, rfl⟩)
  have kinds := once.kind_of_imported fun x hx => (known _).2 (.inr ⟨x, hx, rfl⟩)
  have numbered {k : String} {kind : EntityKind} (hk : (k, kind) ∈ index) : f.kind? k = some kind :=
    (kind_addAll content once kinds (fun y hy => (known y).1 hy) h k kind).2 (.inl hk)
  have sound := isSound_addAll (fits_combined accepted free faultless) content steady kinds
    (by simp [Form.component?]) h
  have written : ∀ c ∈ f.written, c.IsSound (IsListed index) := fun c hc =>
    sound _ c (table.mem_written.1 hc).1
  obtain ⟨lawful, same⟩ := isLawful_addAll content steady.lawful (by simp [Form.IsLawful]) h
  have himports : f.imports = List.filter (fun n => n.data.category = .imported)
      (Forest.stripInherited declared) := by rw [same]
  have hexports : f.exports = List.filter (fun n => n.data.category = .exported)
      (Forest.stripInherited declared) := by rw [same]
  have sources : List.flatMap importedBy f.imports = List.flatMap importedBy declared := by
    rw [himports, importedBy_imports]
  obtain ⟨lawfully, plainly, shallowly⟩ :=
    declarations_of_assets free assets accepted faultless grown
  obtain ⟨stands, plain, shallow⟩ := stands_body (fun n hn => by
    rw [himports, hexports, List.mem_append, List.mem_filter, List.mem_filter] at hn
    exact hn.elim And.left And.left) lawful written lawfully plainly shallowly
  have kind : f.kind = .asset := by rw [same]
  have schema : f.schema = [.branch (.asset f.key) f.body] := schema_eq kind
  have imports := isDeclared_declarations lifted grown fun n => n.data.category = .imported
  have exports := isDeclared_declarations lifted grown fun n => n.data.category = .exported
  rw [← himports] at imports
  rw [← hexports] at exports
  have ofImports : ∀ n ∈ f.imports, n.data.category = .imported := by
    rw [himports]
    exact fun n hn => by simpa using (List.mem_filter.1 hn).2
  have ofExports : ∀ n ∈ f.exports, n.data.category = .exported := by
    rw [hexports]
    exact fun n hn => by simpa using (List.mem_filter.1 hn).2
  exact {
    table, grouped, kind
    accepted := by
      rw [schema, same]
      rw [same] at stands plain shallow
      exact accepted_of_asset named stands plain shallow
    free := by
      rw [schema]
      exact Forest.isEditFree_cons.2 ⟨by simp, Forest.isEditFree_of_stands_plainly plain,
        by simp [Forest.IsEditFree, Forest.preorder]⟩
    faultless := Forest.faultAt?_of_succ shallow
    components := fun c hc => (written c hc).steady
    within := fun c hc x hx e data => numbered ((written c hc).within x hx e data).2
    declared := by
      rw [sources]
      exact fun x hx => numbered ((known _).2 (.inr ⟨x, hx, rfl⟩))
    origins := by
      rw [sources]
      exact origin_addAll (by simp [Form.component?]) content h
    imports := ofImports
    exports := ofExports
    unmarked := Forest.isLocal_append.2 ⟨imports.unmarked, exports.unmarked⟩
    settled := Forest.settled_declared imports.settled exports.settled ofImports ofExports }

/-- Standardizing the document of the form of assets without edits finds the form again. -/
theorem restores_standardize (free : ∀ t ∈ inputs, Forest.IsEditFree t)
    (assets : ∀ t ∈ inputs, ∀ n ∈ t, ∃ key, n.data = .asset key)
    (done : standardize inputs = .ok f) :
    ∃ g, standardize [f.schema] = .ok g ∧ f.Restores g :=
  (isSteady_standardize free assets done).restores

/-- A house with an imported attic, and a feature before a hall that refers to another. -/
def houseWithAttic : List (Forest Tag) :=
  [[.branch (.asset "house")
    [.branch (.imported "base") [.leaf (.room "attic")], .leaf (.feature "door"),
      .branch (.room "hall") [.leaf (.feature "window")]]]]

theorem restores_standardize_houseWithAttic :
    ∃ f g, standardize houseWithAttic = .ok f ∧ standardize [f.schema] = .ok g ∧
      f.order = ["hall", "attic", "door", "window"] ∧
      g.order = ["hall", "attic", "window", "door"] ∧ f.Restores g := by
  have orders : ((standardize houseWithAttic).toOption.bind fun f =>
      (standardize [f.schema]).toOption.map fun g => (f.order, g.order)) =
        some (["hall", "attic", "door", "window"], ["hall", "attic", "window", "door"]) := by
    cbv
  cases hf : standardize houseWithAttic with
  | error e => simp [hf, Except.toOption] at orders
  | ok f =>
    obtain ⟨g, hg, restored⟩ := restores_standardize (by decide)
      (by simp [houseWithAttic, Node.branch]) hf
    obtain ⟨first, second⟩ : f.order = ["hall", "attic", "door", "window"] ∧
        g.order = ["hall", "attic", "window", "door"] := by
      simpa [hf, hg, Except.toOption] using orders
    exact ⟨f, g, rfl, hg, first, second, restored⟩

end Form

end WorldMarkup
