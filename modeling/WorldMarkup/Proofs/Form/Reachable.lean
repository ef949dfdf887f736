import Mathlib
import WorldMarkup.Proofs.Form.Tables
import WorldMarkup.Proofs.Tree.Filtering

/-!
The forms that can be come by: from documents, by laying one form over another, by keeping or
taking out parts, by noting dependencies. Main statement: each of them is well formed. Its order
names each key once and kind by kind, each component is the one of its key and has the fields of
its kind, and nothing in it is inherited.
-/

set_option autoImplicit false
set_option relaxedAutoImplicit false

namespace WorldMarkup

/-! ### Local content taken apart and grown -/

theorem Forest.IsLocal.filter {t : Forest Tag} (h : Forest.IsLocal t) (test : Node Tag → Bool) :
    Forest.IsLocal (List.filter test t) := by
  induction t with
  | nil => exact h
  | cons n rest ih =>
    cases n
    obtain ⟨own, below, beside⟩ := Forest.isLocal_cons.1 h
    rw [List.filter_cons]
    split
    · exact Forest.isLocal_cons.2 ⟨own, below, ih beside⟩
    · exact ih beside

theorem Forest.IsLocal.pathsFrom {t : Forest Tag} (h : Forest.IsLocal t) {first : Nat}
    {p : Path Tag} (hp : p ∈ Forest.pathsFrom first t) {s : Step Tag} (hs : s ∈ p) :
    s.data ≠ .inherited ∧ s.extra.inherited = false := by
  induction t using Forest.induction generalizing first p with
  | nil => simp [Forest.pathsFrom] at hp
  | cons d e cs rest hcs hrest =>
    obtain ⟨own, below, beside⟩ := Forest.isLocal_cons.1 h
    rw [Forest.pathsFrom, Forest.paths_eq_rests, List.mem_append] at hp
    rcases hp with hp | hp
    · obtain ⟨q, hq, rfl⟩ := List.mem_map.1 hp
      rcases List.mem_cons.1 hs with rfl | hs
      · exact own
      · rw [Forest.rests] at hq
        split at hq
        · simp [List.mem_singleton.1 hq] at hs
        · exact hcs below hq hs
    · exact hrest beside hp hs

namespace Growth

variable {order : List Category}

theorem isLocal_insert {p : Path Tag} {g : Growth Tag}
    (steps : ∀ s ∈ p, s.data ≠ .inherited ∧ s.extra.inherited = false)
    (h : Forest.IsLocal g.forest) : Forest.IsLocal (insert (regrowth order) p g).forest := by
  induction p generalizing g with
  | nil => exact h
  | cons s rest ih =>
    obtain ⟨own, later⟩ := List.forall_mem_cons.1 steps
    rcases meets_or_isNew (regrowth order) s g with ⟨before, n, after, rfl, hmeets⟩ | hnew
    · rw [Growth.forest_append, Forest.isLocal_append] at h
      obtain ⟨hbefore, hrest⟩ := h
      rcases n with ⟨⟨d, number⟩, e, cs⟩
      obtain ⟨there, below, hafter⟩ := Forest.isLocal_cons.1 hrest
      rw [insert_of_meets _ hmeets, Growth.forest_append, Forest.isLocal_append]
      refine ⟨hbefore, Forest.isLocal_cons.2 ⟨⟨?_, ?_⟩, ih later below, hafter⟩⟩
      · rcases settle_data (step ⟨(d, number), e, cs⟩) s with h | h
        · exact fun hd => there.1 (h.symm.trans hd)
        · exact fun hd => own.1 (h.symm.trans hd)
      · show (e.inherited && s.extra.inherited) = false
        rw [own.2, Bool.and_false]
    · obtain ⟨before, after, rfl, hput, -⟩ := exists_of_isNew hnew
      rw [Growth.forest_append, Forest.isLocal_append] at h
      rw [hput, Growth.forest_append, Forest.isLocal_append]
      exact ⟨h.1, Forest.isLocal_cons.2 ⟨own, ih later Forest.isLocal_nil, h.2⟩⟩

theorem isLocal_insertAll {paths : List (Path Tag)} {g : Growth Tag}
    (steps : ∀ p ∈ paths, ∀ s ∈ p, s.data ≠ .inherited ∧ s.extra.inherited = false)
    (h : Forest.IsLocal g.forest) :
    Forest.IsLocal (insertAll (regrowth order) paths g).forest := by
  induction paths generalizing g with
  | nil => exact h
  | cons p paths ih =>
    rw [insertAll_cons]
    exact ih (fun q hq => steps q (by simp [hq])) (isLocal_insert (steps p (by simp)) h)

end Growth

theorem Forest.isLocal_ofPaths {paths : List (Path Tag)}
    (steps : ∀ p ∈ paths, ∀ s ∈ p, s.data ≠ .inherited ∧ s.extra.inherited = false) :
    Forest.IsLocal (Forest.ofPaths worldRules paths) := by
  show Forest.IsLocal (Growth.forest (Growth.insertAll (Growth.regrowth []) paths []))
  exact Growth.isLocal_insertAll steps Forest.isLocal_nil

namespace Form

theorem foldDeclarations_eq_ok {t u : Forest Tag} (folded : foldDeclarations t = .ok u) :
    u = Forest.ofPaths worldRules (Forest.paths t) := by
  unfold foldDeclarations at folded
  split at folded
  · exact (Except.ok.inj folded).symm
  · rcases hpaths : Forest.worldPaths t with fault | paths
    · simp [hpaths, Except.map] at folded
    · obtain ⟨-, rfl⟩ := Forest.worldPaths_eq hpaths
      simpa [hpaths, Except.map] using folded.symm

theorem isLocal_foldDeclarations {t u : Forest Tag} (h : Forest.IsLocal t)
    (folded : foldDeclarations t = .ok u) : Forest.IsLocal u := by
  rw [foldDeclarations_eq_ok folded]
  exact Forest.isLocal_ofPaths (fun p hp s hs => h.pathsFrom hp hs)

/-! ### Keeping and taking out -/

theorem isLocal_viaOutline {rework : WorldOutline → WorldOutline} {t u : Forest Tag}
    (keeps : ∀ o, (rework o).rules = o.rules ∧
      ∀ p ∈ (rework o).paths, ∀ s ∈ p, ∃ q ∈ o.paths, s ∈ q)
    (h : Forest.IsLocal t) (done : viaOutline rework t = .ok u) : Forest.IsLocal u := by
  unfold viaOutline at done
  split at done
  · rename_i o ho
    obtain ⟨-, rfl⟩ := Outline.ofForest_eq_ok.1 ho
    obtain rfl := Except.ok.inj done
    obtain ⟨rules, steps⟩ := keeps ⟨worldRules, Forest.paths t⟩
    rw [Outline.forest, rules]
    apply Forest.isLocal_ofPaths
    intro p hp s hs
    obtain ⟨q, hq, hsq⟩ := steps p hp s hs
    exact h.pathsFrom hq hsq
  · simp at done

theorem isLocal_filter {q : WorldQuery} {t u : Forest Tag} (h : Forest.IsLocal t)
    (done : viaOutline (fun o => Outline.filter o q) t = .ok u) : Forest.IsLocal u := by
  apply isLocal_viaOutline _ h done
  intro o
  refine ⟨rfl, fun p hp s hs => ?_⟩
  obtain ⟨longer, hlonger, short⟩ := Path.exists_longer_of_mem hp
  exact ⟨longer, hlonger, short.subset hs⟩

theorem isLocal_prune {q : WorldQuery} {t u : Forest Tag} (h : Forest.IsLocal t)
    (done : viaOutline (fun o => Outline.prune o q) t = .ok u) : Forest.IsLocal u := by
  apply isLocal_viaOutline _ h done
  intro o
  refine ⟨rfl, fun p hp s hs => ?_⟩
  obtain ⟨whole, hwhole, rfl⟩ := List.mem_map.1 (List.mem_filter.1 hp).1
  obtain ⟨⟨x, marked⟩, hx, hxs⟩ := List.mem_filterMap.1 hs
  refine ⟨whole, hwhole, ?_⟩
  have own : x = s := by
    cases marked <;> simp_all
  rw [← own]
  exact (List.of_mem_zip hx).1

end Form

namespace Component

theorem reroot_spec (kind : FieldKind) {t : Forest Tag} (h : Forest.IsLocal t) :
    (reroot kind t).data = .field kind ∧ Forest.IsLocal [reroot kind t] := by
  have wrapped : Forest.IsLocal [.branch (.field kind) t] :=
    Forest.isLocal_cons.2 ⟨⟨by simp, rfl⟩, h, Forest.isLocal_nil⟩
  unfold reroot
  split
  · split
    · rename_i own
      exact ⟨own, h⟩
    · exact ⟨rfl, wrapped⟩
  · exact ⟨rfl, wrapped⟩

theorem fields_of_mapTrees {change : Forest Tag → Except FormError (Forest Tag)}
    (keeps : ∀ {t u}, Forest.IsLocal t → change t = .ok u → Forest.IsLocal u)
    {fields out : List ComponentField} (content : ∀ f ∈ fields, Forest.IsLocal [f.node])
    (h : List.Forall₂ (fun f g => (do
      pure { f with node := reroot f.kind (← change [f.node]) }) = Except.ok g) fields out) :
    out.map ComponentField.kind = fields.map ComponentField.kind ∧
      ∀ g ∈ out, g.node.data = .field g.kind ∧ Forest.IsLocal [g.node] := by
  induction h with
  | nil => simp
  | @cons f g fields out hfg _ ih =>
    obtain ⟨t, ht, hg⟩ := Except.bind_eq_ok.1 hfg
    obtain rfl := Except.ok.inj hg
    obtain ⟨kinds, rest⟩ := ih (fun x hx => content x (by simp [hx]))
    have rooted := reroot_spec f.kind (keeps (content f (by simp)) ht)
    exact ⟨by simp [kinds], List.forall_mem_cons.2 ⟨rooted, rest⟩⟩

theorem WellFormed.mapTrees {change : Forest Tag → Except FormError (Forest Tag)}
    (keeps : ∀ {t u}, Forest.IsLocal t → change t = .ok u → Forest.IsLocal u) {key : String}
    {c out : Component} (hc : c.WellFormed Forest.IsLocal key)
    (h : c.mapTrees change = .ok out) :
    out.kind = c.kind ∧ out.WellFormed Forest.IsLocal key := by
  rw [Component.mapTrees] at h
  obtain ⟨fields, hfields, h⟩ := Except.bind_eq_ok.1 h
  obtain ⟨items, hitems, h⟩ := Except.bind_eq_ok.1 h
  obtain rfl := Except.ok.inj h
  obtain ⟨kinds, changed⟩ := fields_of_mapTrees keeps hc.fields (Except.forall₂_mapM hfields)
  refine ⟨rfl, ⟨hc.key_eq, hc.tag, ?_, ?_, ?_, keeps hc.items hitems⟩⟩
  · rw [kinds]
    exact hc.kinds
  · exact fun g hg => (changed g hg).1
  · exact fun g hg => (changed g hg).2

end Component

namespace Form

theorem entries_of_mapTrees {change : Forest Tag → Except FormError (Forest Tag)}
    (keeps : ∀ {t u}, Forest.IsLocal t → change t = .ok u → Forest.IsLocal u)
    {l out : List (String × Component)} (entries : ∀ x ∈ l, x.2.WellFormed Forest.IsLocal x.1)
    (h : List.Forall₂ (fun x y => (do pure (x.1, ← x.2.mapTrees change)) = Except.ok y) l out) :
    List.Forall₂ (fun x y => y.1 = x.1 ∧ y.2.kind = x.2.kind) l out ∧
      ∀ y ∈ out, y.2.WellFormed Forest.IsLocal y.1 := by
  induction h with
  | nil => exact ⟨.nil, by simp⟩
  | @cons x y l out hxy _ ih =>
    obtain ⟨c, hc, hy⟩ := Except.bind_eq_ok.1 hxy
    obtain rfl := Except.ok.inj hy
    obtain ⟨pairs, rest⟩ := ih (fun z hz => entries z (by simp [hz]))
    obtain ⟨kind, wf⟩ := (entries x (by simp)).mapTrees keeps hc
    exact ⟨.cons ⟨rfl, kind⟩ pairs, List.forall_mem_cons.2 ⟨wf, rest⟩⟩

section Pairs

variable {l out : List (String × Component)}
  (pairs : List.Forall₂ (fun x y => y.1 = x.1 ∧ y.2.kind = x.2.kind) l out)

include pairs

theorem keys_of_pairs : out.map Prod.fst = l.map Prod.fst := by
  induction pairs with
  | nil => rfl
  | cons same _ ih => simp [same.1, ih]

theorem kinds_of_pairs (k : String) :
    (out.find? (fun x => x.1 == k)).map (fun x => x.2.kind) =
      (l.find? (fun x => x.1 == k)).map (fun x => x.2.kind) := by
  induction pairs with
  | nil => rfl
  | @cons x y l out same _ ih =>
    rw [List.find?_cons, List.find?_cons, same.1]
    cases x.1 == k with
    | true => exact congrArg some same.2
    | false => exact ih

end Pairs

theorem WellFormed.mapComponents {change : Forest Tag → Except FormError (Forest Tag)}
    (keeps : ∀ {t u}, Forest.IsLocal t → change t = .ok u → Forest.IsLocal u) {f g : Form}
    (h : f.WellFormed Forest.IsLocal) (done : f.mapComponents change = .ok g) :
    g.WellFormed Forest.IsLocal := by
  unfold Form.mapComponents at done
  obtain ⟨byKey, hbyKey, done⟩ := Except.bind_eq_ok.1 done
  obtain rfl := Except.ok.inj done
  obtain ⟨pairs, entries⟩ := entries_of_mapTrees keeps h.entries (Except.forall₂_mapM hbyKey)
  have keys := keys_of_pairs pairs
  have kinds {k : String} {c : Component} (hc : Form.component? { f with byKey } k = some c) :
      ∃ d, f.component? k = some d ∧ d.kind = c.kind := by
    obtain ⟨x, hx, rfl⟩ := Option.map_eq_some_iff.1 hc
    have same := kinds_of_pairs pairs k
    rw [hx, Option.map_some] at same
    obtain ⟨y, hy, hkind⟩ := Option.map_eq_some_iff.1 same.symm
    exact ⟨y.2, Option.map_eq_some_iff.2 ⟨y, hy, rfl⟩, hkind⟩
  have sorted : IsSortedByKey byKey := by
    have before : (f.byKey.map Prod.fst).Pairwise (· < ·) := List.pairwise_map.2 h.sorted
    rw [← keys] at before
    exact List.pairwise_map.1 before
  refine ⟨⟨sorted, entries, h.once, fun k => (h.listed k).trans (by rw [keys])⟩, ?_,
    h.imports, h.exports⟩
  refine List.Pairwise.imp ?_ h.grouped
  intro a b hab c d hc hd
  obtain ⟨c', hc', hck⟩ := kinds hc
  obtain ⟨d', hd', hdk⟩ := kinds hd
  rw [← hck, ← hdk]
  exact hab c' d' hc' hd'

end Form

/-! ### Bringing documents together -/

namespace Standardize

variable {content : List (Path Tag)} {imported : List Imported} {form out : Form}

/-- Adding the component of a key puts in a well-formed one, or changes nothing where neither the
content nor an import has the key. -/
theorem wellFormed_addComponent (lifted : Address.AreLifted content) {key : String}
    {kind : EntityKind} (kinds : ∀ x ∈ imported, x.entity.key = key → x.entity.kind = kind)
    (h : addComponent content imported form key kind = .ok out) :
    (out = form ∧ componentOf content kind key = .ok none ∧ ∀ x ∈ imported, x.entity.key ≠ key) ∨
      ∃ c : Component, c.WellFormed Forest.IsSettled key ∧ c.kind = kind ∧ out = form.put c := by
  rcases addComponent_cases h with ⟨c, origin, made, put⟩ | ⟨none, ⟨same, other⟩ | ⟨x, hx, own, put⟩⟩
  · obtain ⟨hkind, wf⟩ := wellFormed_componentOf lifted made
    exact .inr ⟨_, wf.annotate c.extra origin, hkind, Form.insert_eq_ok put⟩
  · exact .inl ⟨same, none, other⟩
  · have wf := Component.wellFormed_ofEntity
      (Forest.gathers_isTidy.and Forest.gathers_isLocal) x.entity
    rw [own] at wf
    exact .inr ⟨_, wf.annotate (Component.ofEntity x.entity).extra (some x.origin),
      kinds x hx own, Form.insert_eq_ok put⟩

/-- Putting in a component of a new key, whose kind comes after all others, keeps the keys kind
by kind. -/
theorem isGrouped_put (table : form.IsTable Forest.IsSettled) (grouped : form.IsGrouped)
    {c : Component} (new : c.key ∉ form.order)
    (last : ∀ k d, form.component? k = some d → d.kind.rank ≤ c.kind.rank) :
    (form.put c).IsGrouped := by
  have absent : (form.component? c.key).isSome = false := by
    rw [Bool.eq_false_iff]
    exact fun present => new (table.mem_order_iff.2 present)
  have order : (form.put c).order = form.order ++ [c.key] := by
    simp [Form.put, absent]
  have other {k : String} (hk : k ∈ form.order) : (form.put c).component? k = form.component? k := by
    rw [Form.component?_put, if_neg]
    rintro rfl
    exact new hk
  unfold Form.IsGrouped
  rw [order, List.pairwise_append]
  refine ⟨?_, List.pairwise_singleton _ _, ?_⟩
  · refine List.Pairwise.imp_of_mem ?_ grouped
    intro a b ha hb hab
    rw [other ha, other hb]
    exact hab
  · intro a ha b hb d e hd he
    rw [List.mem_singleton.1 hb, Form.component?_put, if_pos rfl] at he
    obtain rfl := Option.some.inj he
    rw [other ha] at hd
    exact last a d hd

/-- Adding the components of an index, kind by kind, gives a table whose keys stand kind by
kind. -/
theorem wellFormed_addAll (lifted : Address.AreLifted content) {index : KeyIndex}
    (once : IsIndex index) (sorted : index.Pairwise (fun x y => x.2.rank ≤ y.2.rank))
    (kinds : ∀ x ∈ imported, ∀ y ∈ index, x.entity.key = y.1 → x.entity.kind = y.2)
    (table : form.IsTable Forest.IsSettled) (grouped : form.IsGrouped)
    (new : ∀ y ∈ index, y.1 ∉ form.order)
    (last : ∀ k d, form.component? k = some d → ∀ y ∈ index, d.kind.rank ≤ y.2.rank)
    (h : index.foldlM (fun form x => addComponent content imported form x.1 x.2) form = .ok out) :
    (out.IsTable Forest.IsSettled ∧ out.IsGrouped) ∧
      out.imports = form.imports ∧ out.exports = form.exports := by
  induction index generalizing form with
  | nil =>
    obtain rfl := Except.ok.inj h
    exact ⟨⟨table, grouped⟩, rfl, rfl⟩
  | cons y index ih =>
    rw [List.foldlM_cons] at h
    obtain ⟨next, hnext, hrest⟩ := Except.bind_eq_ok.1 h
    obtain ⟨own, once⟩ := List.nodup_cons.1 once
    obtain ⟨first, sorted⟩ := List.pairwise_cons.1 sorted
    have kinds' : ∀ x ∈ imported, ∀ z ∈ index, x.entity.key = z.1 → x.entity.kind = z.2 :=
      fun x hx z hz => kinds x hx z (by simp [hz])
    rcases wellFormed_addComponent lifted (fun x hx => kinds x hx y (by simp)) hnext with
      ⟨rfl, -⟩ | ⟨c, wf, hkind, rfl⟩
    · exact ih once sorted kinds' table grouped (fun z hz => new z (by simp [hz]))
        (fun k d hd z hz => last k d hd z (by simp [hz])) hrest
    · have hkey := wf.key_eq
      have fresh : c.key ∉ form.order := by
        rw [hkey]
        exact new y (by simp)
      have absent : (form.component? c.key).isSome = false := by
        rw [Bool.eq_false_iff]
        exact fun present => fresh (table.mem_order_iff.2 present)
      have put : (form.put c).IsTable Forest.IsSettled := table.put (by rw [hkey]; exact wf)
      have atEnd : (form.put c).IsGrouped := by
        apply isGrouped_put table grouped fresh
        intro k d hd
        rw [hkind]
        exact last k d hd y (by simp)
      have new' : ∀ z ∈ index, z.1 ∉ (form.put c).order := by
        intro z hz
        have order : (form.put c).order = form.order ++ [c.key] := by simp [Form.put, absent]
        rw [order, hkey, List.mem_append, List.mem_singleton]
        rintro (hz' | hz')
        · exact new z (by simp [hz]) hz'
        · exact own (hz' ▸ List.mem_map_of_mem hz)
      have last' : ∀ k d, (form.put c).component? k = some d →
          ∀ z ∈ index, d.kind.rank ≤ z.2.rank := by
        intro k d hd z hz
        rw [Form.component?_put] at hd
        split at hd
        · obtain rfl := Option.some.inj hd
          rw [hkind]
          exact first z hz
        · exact last k d hd z (by simp [hz])
      have done := ih once sorted kinds' put atEnd new' last' hrest
      exact done

theorem exists_of_mem_declarationPaths {docs : List (Path Tag)} {q : Path Tag}
    (h : q ∈ docs.filterMap declarationPath?) :
    ∃ above s below, above ++ s :: below ∈ docs ∧ q = s :: below ∧ isDeclaration s.data = true := by
  obtain ⟨p, hp, hpq⟩ := List.mem_filterMap.1 h
  unfold declarationPath? at hpq
  split at hpq
  · simp at hpq
  · rename_i found
    obtain rfl := Option.some.inj hpq
    have split := List.takeWhile_append_dropWhile (p := fun s => !isDeclaration s.data) (l := p)
    have head := List.head?_dropWhile_not (fun s => !isDeclaration s.data) p
    cases hq : p.dropWhile (fun s => !isDeclaration s.data) with
    | nil => exact absurd hq found
    | cons s below =>
      rw [hq] at split head
      refine ⟨_, s, below, split.symm ▸ hp, rfl, ?_⟩
      simpa using head

theorem mem_of_mem_declarationPaths {docs : List (Path Tag)} {s : Step Tag}
    (h : s ∈ (docs.filterMap declarationPath?).flatten) : s ∈ docs.flatten := by
  obtain ⟨q, hq, hs⟩ := List.mem_flatten.1 h
  obtain ⟨above, t, below, hp, rfl, -⟩ := exists_of_mem_declarationPaths hq
  exact List.mem_flatten.2 ⟨_, hp, List.mem_append_right above hs⟩

theorem agree_declarationPaths {docs : List (Path Tag)} (agree : Path.Agree docs) :
    Path.Agree (docs.filterMap declarationPath?) :=
  fun s hs x hx => agree s (mem_of_mem_declarationPaths hs) x (mem_of_mem_declarationPaths hx)

theorem stands_declarations {σ : Type} {R : Standing σ} (hR : R.Respects) {scope : σ}
    {docs : List (Path Tag)} (agree : Path.Agree docs)
    (stands : ∀ q ∈ docs.filterMap declarationPath?, Path.Stands R scope q)
    {declared : Forest Tag} (h : declarations (docs.filterMap declarationPath?) = .ok declared) :
    Forest.Stands R scope declared := by
  unfold declarations at h
  split at h
  · obtain rfl := Except.ok.inj h
    trivial
  · rw [Alignment.regrow_eq_ok h]
    exact Growth.stands_insertAll hR (agree_declarationPaths agree) stands

theorem isTidy_declarations {docs : List (Path Tag)} (lifted : Address.AreLifted docs)
    {declared : Forest Tag} (h : declarations (docs.filterMap declarationPath?) = .ok declared) :
    Forest.IsTidy declared := by
  apply stands_declarations Tag.editable_standsTidily.toRespects lifted.agree _ h
  intro q hq
  refine Path.stands_tidily.2 ⟨?_, ?_⟩
  · intro s hs
    exact lifted.lifted s (mem_of_mem_declarationPaths (List.mem_flatten.2 ⟨q, hq, hs⟩))
  · intro s hs
    obtain ⟨above, t, below, hp, rfl, -⟩ := exists_of_mem_declarationPaths hq
    have running := (lifted.stands _ hp).mono (fun _ _ h => Tag.StandsLifted.running h)
    apply Address.Path.texts_of_stands running
    rw [List.dropLast_append_of_ne_nil (by simp)]
    exact List.mem_append_right _ hs

end Standardize

open Standardize in
/-- Bringing accepted documents together gives a table of components, kind by kind, beside the
imports and the exports that grow from the paths of declarations. -/
theorem isTable_standardize {inputs : List (Forest Tag)} {form : Form}
    (h : standardize inputs = .ok form) :
    (form.IsTable Forest.IsSettled ∧ form.IsGrouped) ∧
      ∃ docs declared, Address.AreLifted docs ∧
        declarations (docs.filterMap declarationPath?) = .ok declared ∧
        form.imports = List.filter (fun n => n.data.category = .imported)
          (Forest.stripInherited declared) ∧
        form.exports = List.filter (fun n => n.data.category = .exported)
          (Forest.stripInherited declared) := by
  obtain ⟨accepted, -, key, kind, declared, index, -, grown, once, sorted, known, h⟩ :=
    standardize_eq_ok h
  have kinds := once.kind_of_imported (fun x hx => (known _).2 (.inr ⟨x, hx, rfl⟩))
  have lifted : Address.AreLifted (Forest.paths (combined inputs)) :=
    (stands_combined accepted).areStanding 0
  have content : Address.AreLifted (Address.contentPaths (combined inputs)) :=
    lifted.of_subset (fun p hp => (List.mem_filter.1 hp).1)
  obtain ⟨table, himports, hexports⟩ := wellFormed_addAll content once sorted kinds
    (Form.isTable_of_empty rfl rfl).1 (Form.isTable_of_empty (P := Forest.IsSettled) rfl rfl).2
    (by simp) (by simp [Form.component?]) h
  exact ⟨table, _, declared, lifted, grown, himports, hexports⟩

open Standardize in
theorem wellFormed_standardize {inputs : List (Forest Tag)} {form : Form}
    (h : standardize inputs = .ok form) : form.WellFormed Forest.IsSettled := by
  obtain ⟨⟨table, grouped⟩, docs, declared, lifted, grown, imports, exports⟩ :=
    isTable_standardize h
  have tidy := isTidy_declarations lifted grown
  have settled (c : Category) : Forest.IsSettled
      (List.filter (fun n => n.data.category = c) (Forest.stripInherited declared)) := by
    constructor
    · exact (Forest.isTidy_stripInherited tidy).of_subset (fun n hn => (List.mem_filter.1 hn).1)
    · exact tidy.isLocal_stripInherited.filter _
  exact ⟨table, grouped, imports ▸ settled .imported, exports ▸ settled .exported⟩

/-! ### Forms that can be come by -/

namespace Form

theorem WellFormed.mono {P Q : Forest Tag → Prop} {f : Form} (h : f.WellFormed P)
    (imp : ∀ t, P t → Q t) : f.WellFormed Q :=
  ⟨⟨h.sorted, fun x hx => (h.entries x hx).mono imp, h.once, h.listed⟩, h.grouped,
    imp _ h.imports, imp _ h.exports⟩

/-- Forms that come of documents, of two forms, or of a form. -/
inductive IsReachable : Form → Prop
  | documents {inputs : List (Forest Tag)} {f : Form} (done : standardize inputs = .ok f) :
    IsReachable f
  | merged {f later g : Form} (first : IsReachable f) (second : IsReachable later)
    (done : f.merge later = .ok g) : IsReachable g
  | filtered {f g : Form} (q : WorldQuery) (before : IsReachable f) (done : f.filter q = .ok g) :
    IsReachable g
  | pruned {f g : Form} (q : WorldQuery) (before : IsReachable f) (done : f.prune q = .ok g) :
    IsReachable g
  | annotated {f g : Form} (extract : String → List String) (before : IsReachable f)
    (done : f.assignDependencies extract = .ok g) : IsReachable g

/-- Whatever is done to forms, they stay well formed, and nothing in them is inherited. -/
theorem IsReachable.wellFormed {f : Form} (h : f.IsReachable) : f.WellFormed Forest.IsLocal := by
  induction h with
  | documents done => exact (wellFormed_standardize done).mono (fun _ h => h.2)
  | merged first second done ih ih' =>
    exact ih.merge Forest.gathers_isLocal isLocal_foldDeclarations ih' done
  | filtered q before done ih => exact ih.mapComponents isLocal_filter done
  | pruned q before done ih => exact ih.mapComponents isLocal_prune done
  | annotated extract before done ih =>
    exact (wellFormed_standardize done).mono (fun _ h => h.2)

/-- A hall with a door, and what a base definition says of it. -/
def hallWithBase : List (Forest Tag) :=
  [[.branch (.asset "house")
    [.branch .inherited [.branch (.room "hall") [.branch (.field .name) [.leaf (.text "Hall")]]],
      .branch (.room "hall")
        [.branch (.feature "door") [.branch (.field .description) [.leaf (.text "Oak.")]],
          .branch (.field .description) [.leaf (.text "A hall.")]]]]]

theorem IsReachable.wellFormed_hallWithBase :
    ∃ f g h, standardize hallWithBase = .ok f ∧ f.merge f = .ok g ∧
      g.prune WorldQuery.anyField = .ok h ∧ h.order = ["hall", "door"] ∧
      h.WellFormed Forest.IsLocal := by
  have order : (((standardize hallWithBase).toOption.bind
      (fun f => (f.merge f).toOption)).bind
        (fun g => (g.prune WorldQuery.anyField).toOption)).map Form.order =
      some ["hall", "door"] := by
    cbv
  cases hf : standardize hallWithBase with
  | error e => simp [hf, Except.toOption] at order
  | ok f =>
    cases hg : f.merge f with
    | error e => simp [hf, hg, Except.toOption] at order
    | ok g =>
      cases hh : g.prune WorldQuery.anyField with
      | error e => simp [hf, hg, hh, Except.toOption] at order
      | ok h =>
        have reachable : h.IsReachable :=
          .pruned _ (.merged (.documents hf) (.documents hf) hg) hh
        exact ⟨f, g, h, rfl, hg, hh, by simpa [hf, hg, hh, Except.toOption] using order,
          IsReachable.wellFormed reachable⟩

def featureBeforeRoom : List (Forest Tag) :=
  [[.branch (.asset "house")
    [.leaf (.feature "door"), .branch (.room "hall") [.leaf (.feature "window")]]]]

/-- Keys of a kind stand in the order in which documents name them, and a form writes a reference
before the features that follow its room, so what it writes may come back in another order. -/
theorem standardize_schema_featureBeforeRoom :
    ∃ f g, standardize featureBeforeRoom = .ok f ∧ standardize [f.schema] = .ok g ∧
      f.order = ["hall", "door", "window"] ∧ g.order = ["hall", "window", "door"] ∧ g ≠ f := by
  have orders : ((standardize featureBeforeRoom).toOption.bind fun f =>
      (standardize [f.schema]).toOption.map fun g => (f.order, g.order)) =
        some (["hall", "door", "window"], ["hall", "window", "door"]) := by
    cbv
  cases hf : standardize featureBeforeRoom with
  | error e => simp [hf, Except.toOption] at orders
  | ok f =>
    cases hg : standardize [f.schema] with
    | error e => simp [hf, hg, Except.toOption] at orders
    | ok g =>
      obtain ⟨first, second⟩ : f.order = ["hall", "door", "window"] ∧
          g.order = ["hall", "window", "door"] := by
        simpa [hf, hg, Except.toOption] using orders
      refine ⟨f, g, rfl, hg, first, second, ?_⟩
      rintro rfl
      rw [first] at second
      simp at second

end Form

end WorldMarkup
