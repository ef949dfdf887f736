import Mathlib.Data.List.TakeWhile
import WorldMarkup.Proofs.Form.Settling

/-!
From documents without edits to the components of their form. Main statement: every field of every
component holds the content of its address in all documents together.
-/

set_option autoImplicit false
set_option relaxedAutoImplicit false

namespace WorldMarkup

namespace Form

theorem find?_putAt (key : String) (c : Component) (l : List (String × Component)) (k : String) :
    (putAt key c l).find? (fun x => x.1 == k) =
      if k = key then some (key, c) else l.find? (fun x => x.1 == k) := by
  induction l with
  | nil =>
    by_cases h : k = key
    · simp [putAt, h]
    · have hne : (key == k) = false := beq_eq_false_iff_ne.2 (fun h' => h h'.symm)
      simp [putAt, h, hne]
  | cons x rest ih =>
    rcases x with ⟨k', c'⟩
    have hkey (h : k ≠ key) : (key == k) = false := beq_eq_false_iff_ne.2 (fun h' => h h'.symm)
    rw [putAt]
    split
    · by_cases h : k = key
      · simp [h]
      · simp [h, hkey h]
    · split
      · rename_i heq
        subst heq
        by_cases h : k = key
        · simp [h]
        · simp [h, hkey h]
      · rename_i hne
        by_cases h : k = key
        · subst h
          have hne' : (k' == k) = false := beq_eq_false_iff_ne.2 (fun h' => hne h'.symm)
          simp [hne', ih]
        · simp [List.find?_cons, ih, h]

theorem component?_put (f : Form) (c : Component) (k : String) :
    (f.put c).component? k = if k = c.key then some c else f.component? k := by
  simp only [component?, put, find?_putAt]
  split <;> rfl

theorem insert_eq_ok {f g : Form} {c : Component} (h : f.insert c = .ok g) : g = f.put c := by
  rw [insert] at h
  split at h
  · split at h
    · exact (Except.ok.inj h).symm
    · exact absurd h (by simp)
  · exact (Except.ok.inj h).symm

theorem component?_insert {f g : Form} {c : Component} (h : f.insert c = .ok g) (k : String) :
    g.component? k = if k = c.key then some c else f.component? k := by
  rw [insert_eq_ok h, component?_put]

end Form

namespace Standardize

/-! ### The keys -/

def IsIndex (index : KeyIndex) : Prop := (index.map Prod.fst).Nodup

theorem observe_spec {index out : KeyIndex} {e : Entity} (h : observe index e = .ok out)
    (hi : IsIndex index) :
    IsIndex out ∧ ∀ x, x ∈ out ↔ x ∈ index ∨ x = (e.key, e.kind) := by
  rw [observe] at h
  rcases hfind : index.find? (fun x => x.1 == e.key) with _ | ⟨key, kind⟩
  · rw [hfind] at h
    rw [← Except.ok.inj h]
    refine ⟨?_, by simp⟩
    have hnot : e.key ∉ index.map Prod.fst := by
      intro hmem
      obtain ⟨x, hx, hkey⟩ := List.mem_map.1 hmem
      have := List.find?_eq_none.1 hfind x hx
      simp [hkey] at this
    rw [IsIndex, List.map_append, List.nodup_append]
    refine ⟨hi, by simp, ?_⟩
    intro a ha b hb hab
    rw [List.map_singleton, List.mem_singleton] at hb
    rw [hab, hb] at ha
    exact hnot ha
  · rw [hfind] at h
    have hmem := List.mem_of_find?_eq_some hfind
    have hkey : key = e.key := by simpa using List.find?_some hfind
    simp only at h
    split at h
    · rename_i hkind
      rw [← Except.ok.inj h]
      refine ⟨hi, fun x => (or_iff_left_of_imp ?_).symm⟩
      rintro rfl
      rwa [hkey, hkind] at hmem
    · exact absurd h (by simp)

theorem foldlM_observe {es : List Entity} {index out : KeyIndex}
    (h : es.foldlM observe index = .ok out) (hi : IsIndex index) :
    IsIndex out ∧ ∀ x, x ∈ out ↔ x ∈ index ∨ ∃ e ∈ es, x = (e.key, e.kind) := by
  induction es generalizing index with
  | nil =>
    rw [← Except.ok.inj h]
    exact ⟨hi, by simp⟩
  | cons e es ih =>
    rw [List.foldlM_cons] at h
    obtain ⟨next, hnext, h⟩ := Except.bind_eq_ok.1 h
    obtain ⟨hin, hmem⟩ := observe_spec hnext hi
    obtain ⟨hout, hmem'⟩ := ih h hin
    refine ⟨hout, fun x => ?_⟩
    rw [hmem', hmem, or_assoc]
    simp only [List.mem_cons, or_and_right, exists_or, exists_eq_left]

theorem IsIndex.kind_eq {index : KeyIndex} (h : IsIndex index) {key : String} {k k' : EntityKind}
    (hk : (key, k) ∈ index) (hk' : (key, k') ∈ index) : k = k' := by
  induction index with
  | nil => simp at hk
  | cons x index ih =>
    obtain ⟨hx, hindex⟩ := List.nodup_cons.1 h
    rcases List.mem_cons.1 hk with rfl | hk <;> rcases List.mem_cons.1 hk' with hk' | hk'
    · exact (congrArg Prod.snd hk').symm
    · exact absurd (List.mem_map_of_mem hk') hx
    · rw [← hk'] at hx
      exact absurd (List.mem_map_of_mem hk) hx
    · exact ih hindex hk hk'

theorem IsIndex.kind_of_imported {index : KeyIndex} (h : IsIndex index) {imported : List Imported}
    (listed : ∀ x ∈ imported, (x.entity.key, x.entity.kind) ∈ index) :
    ∀ x ∈ imported, ∀ y ∈ index, x.entity.key = y.1 → x.entity.kind = y.2 := by
  intro x hx y hy same
  have own := listed x hx
  rw [same] at own
  exact h.kind_eq own hy

/-! ### Adding components -/

/-- The components of a form hold what the content says of their fields. -/
def HoldsContent (t : Forest Tag) (form : Form) : Prop :=
  ∀ k c, form.component? k = some c →
    c.key = k ∧ c.Holds (fun f => Address.content ⟨c.kind, c.key, f⟩ t)

/-- Adding the component of a key puts in what the content has of it, or else what is imported
under the key, or nothing. -/
theorem addComponent_cases {content : List (Path Tag)} {imported : List Imported}
    {form out : Form} {key : String} {kind : EntityKind}
    (h : Standardize.addComponent content imported form key kind = .ok out) :
    (∃ c origin, componentOf content kind key = .ok (some c) ∧
        form.insert { c with origin } = .ok out) ∨
      componentOf content kind key = .ok none ∧
        ((out = form ∧ ∀ x ∈ imported, x.entity.key ≠ key) ∨
          ∃ x ∈ imported, x.entity.key = key ∧
            form.insert { Component.ofEntity x.entity with origin := some x.origin } = .ok out) := by
  rw [Standardize.addComponent] at h
  obtain ⟨r, hr, h⟩ := Except.bind_eq_ok.1 h
  cases r with
  | some c => exact .inl ⟨c, _, hr, h⟩
  | none =>
    refine .inr ⟨hr, ?_⟩
    rcases hsource : imported.find? (fun x => x.entity.key == key) with _ | x
    · rw [hsource] at h
      exact .inl ⟨(Except.ok.inj h).symm, fun x hx => by simpa using List.find?_eq_none.1 hsource x hx⟩
    · rw [hsource] at h
      have own : x.entity.key = key := by simpa using List.find?_some hsource
      exact .inr ⟨x, List.mem_of_find?_eq_some hsource, own, h⟩

/-- What holds of the components that come of the content, and of imported entities that the content
says nothing of, holds of all components that are added. -/
theorem forall_component_addAll {P : String → Component → Prop} {content : List (Path Tag)}
    {imported : List Imported} {index : KeyIndex} {form out : Form}
    (kinds : ∀ x ∈ imported, ∀ y ∈ index, x.entity.key = y.1 → x.entity.kind = y.2)
    (made : ∀ kind key c origin, componentOf content kind key = .ok (some c) →
      P c.key { c with origin })
    (known : ∀ x ∈ imported, componentOf content x.entity.kind x.entity.key = .ok none →
      P x.entity.key { Component.ofEntity x.entity with origin := some x.origin })
    (start : ∀ k c, form.component? k = some c → P k c)
    (h : index.foldlM (fun form x => addComponent content imported form x.1 x.2) form = .ok out) :
    ∀ k c, out.component? k = some c → P k c := by
  induction index generalizing form with
  | nil =>
    obtain rfl := Except.ok.inj h
    exact start
  | cons y index ih =>
    rw [List.foldlM_cons] at h
    obtain ⟨next, hnext, h⟩ := Except.bind_eq_ok.1 h
    refine ih (fun x hx z hz => kinds x hx z (List.mem_cons_of_mem _ hz)) ?_ h
    have put {c : Component} (own : P c.key c) (inserted : form.insert c = .ok next) :
        ∀ k d, next.component? k = some d → P k d := by
      intro k d hd
      rw [Form.component?_insert inserted] at hd
      split at hd
      · rename_i same
        obtain rfl := Option.some.inj hd
        rwa [same]
      · exact start k d hd
    rcases addComponent_cases hnext with
      ⟨c, origin, hc, done⟩ | ⟨none, ⟨rfl, -⟩ | ⟨x, hx, own, done⟩⟩
    · exact put (made _ _ c origin hc) done
    · exact start
    · rw [← own, ← kinds x hx y List.mem_cons_self own] at none
      exact put (known x hx none) done

end Standardize

/-! ### Documents -/

open Standardize

theorem accepted_of_validateAll {inputs : List (Forest Tag)} {u : Unit}
    (h : validateAll inputs = .ok u) : ∀ t ∈ inputs, Forest.documentFault? t = none := by
  rw [validateAll] at h
  split at h
  · exact absurd h (by simp)
  · rename_i hnone
    exact List.findSome?_eq_none_iff.1 hnone

theorem Forest.worldPaths_eq {t : Forest Tag} {paths : List (Path Tag)}
    (h : Forest.worldPaths t = .ok paths) :
    Forest.fault? Tag.isWrapper t = none ∧ paths = Forest.paths t := by
  rw [Forest.worldPaths, WorldOutline.ofForest, Outline.ofForest] at h
  rcases hfault : Forest.fault? worldRules.isWrapper t with _ | fault
  · rw [hfault] at h
    exact ⟨hfault, (Except.ok.inj h).symm⟩
  · rw [hfault] at h
    exact absurd h (by simp)

theorem declarationPath?_isNone (p : Path Tag) :
    (declarationPath? p).isNone = decide p.IsContent := by
  rw [Bool.eq_iff_iff, decide_eq_true_eq, declarationPath?]
  split
  · rename_i hnil
    simp only [List.dropWhile_eq_nil_iff] at hnil
    simpa [Path.IsContent] using hnil
  · rename_i rest hne
    simp only [Option.isNone_some, Bool.false_eq_true, false_iff]
    intro hc
    refine hne (List.dropWhile_eq_nil_iff.2 (fun s hs => ?_))
    simp [hc s hs]

/-- What bringing documents together does: the documents are accepted, the declarations grow from
their paths, and the components are added key by key and kind by kind, each key once. The keys are
those of the entities on content paths and of those that are imported. -/
theorem standardize_eq_ok {inputs : List (Forest Tag)} {form : Form}
    (h : standardize inputs = .ok form) :
    (∀ t ∈ inputs, Forest.documentFault? t = none) ∧
      Forest.fault? Tag.isWrapper (combined inputs) = none ∧
      ∃ key kind declared index,
        container inputs = .ok (key, kind) ∧
        declarations ((Forest.paths (combined inputs)).filterMap declarationPath?) = .ok declared ∧
        IsIndex index ∧ IsSorted (fun x : String × EntityKind => x.2.rank) index ∧
        (∀ x, x ∈ index ↔
          (∃ p ∈ Address.contentPaths (combined inputs), ∃ s ∈ p, ∃ e, s.data.entity? = some e ∧
            x = (e.key, e.kind)) ∨
          ∃ y ∈ List.flatMap importedBy declared, x = (y.entity.key, y.entity.kind)) ∧
        index.foldlM (fun form x => addComponent (Address.contentPaths (combined inputs))
            (List.flatMap importedBy declared) form x.1 x.2)
          { key, kind
            imports := List.filter (fun n => n.data.category = .imported)
              (Forest.stripInherited declared)
            exports := List.filter (fun n => n.data.category = .exported)
              (Forest.stripInherited declared) } = .ok form := by
  rw [standardize] at h
  obtain ⟨_, haccepted, h⟩ := Except.bind_eq_ok.1 h
  obtain ⟨⟨key, kind⟩, hcontainer, h⟩ := Except.bind_eq_ok.1 h
  obtain ⟨paths, hpaths, h⟩ := Except.bind_eq_ok.1 h
  obtain ⟨faultless, rfl⟩ := Forest.worldPaths_eq hpaths
  obtain ⟨found, hfound, h⟩ := Except.bind_eq_ok.1 h
  obtain ⟨declared, hdeclared, h⟩ := Except.bind_eq_ok.1 h
  obtain ⟨all, hall, h⟩ := Except.bind_eq_ok.1 h
  have hcontent : (Forest.paths (combined inputs)).filter (fun p => (declarationPath? p).isNone) =
      Address.contentPaths (combined inputs) :=
    List.filter_congr (fun p _ => declarationPath?_isNone p)
  rw [hcontent] at h hfound
  obtain ⟨once, ofContent⟩ := foldlM_observe hfound List.nodup_nil
  obtain ⟨once, known⟩ := foldlM_observe hall once
  have perm : (ordered all).Perm all := List.mergeSort_perm _ _
  refine ⟨accepted_of_validateAll haccepted, faultless, key, kind, declared, ordered all,
    hcontainer, hdeclared, (perm.map Prod.fst).nodup_iff.2 once, isSorted_mergeSort all, ?_, h⟩
  intro x
  rw [perm.mem_iff, known, ofContent]
  simp only [List.not_mem_nil, false_or, List.mem_filterMap, List.mem_flatten, List.mem_map]
  constructor
  · rintro (⟨e, ⟨s, ⟨p, hp, hs⟩, he⟩, rfl⟩ | ⟨e, ⟨y, hy, rfl⟩, rfl⟩)
    · exact .inl ⟨p, hp, s, hs, e, he, rfl⟩
    · exact .inr ⟨y, hy, rfl⟩
  · rintro (⟨p, hp, s, hs, e, he, rfl⟩ | ⟨y, hy, rfl⟩)
    · exact .inl ⟨e, ⟨s, ⟨p, hp, hs⟩, he⟩, rfl⟩
    · exact .inr ⟨y.entity, ⟨y, hy, rfl⟩, rfl⟩

/-- What is standardized are accepted documents, and their content fits. -/
theorem fits_of_standardize {inputs : List (Forest Tag)}
    (free : ∀ t ∈ inputs, Forest.IsEditFree t) {form : Form} (h : standardize inputs = .ok form) :
    (∀ t ∈ inputs, Forest.documentFault? t = none) ∧ Forest.Fits none (combined inputs) := by
  obtain ⟨accepted, faultless, -⟩ := standardize_eq_ok h
  exact ⟨accepted, fits_combined accepted free faultless⟩

/-- Every field of every component holds the content of its address. -/
theorem standardize_holdsContent {inputs : List (Forest Tag)}
    (free : ∀ t ∈ inputs, Forest.IsEditFree t) {form : Form} (h : standardize inputs = .ok form) :
    HoldsContent (combined inputs) form := by
  have hfits := (fits_of_standardize free h).2
  obtain ⟨-, -, key, kind, declared, index, -, -, once, -, known, h⟩ := standardize_eq_ok h
  refine forall_component_addAll
    (once.kind_of_imported (fun x hx => (known _).2 (.inr ⟨x, hx, rfl⟩))) ?_ ?_ (by
      simp [Form.component?]) h
  · intro kind key c origin made
    obtain ⟨hk, hkey, hholds⟩ := holds_of_componentOf_some hfits made
    refine ⟨rfl, Eq.trans hholds ?_⟩
    simp only [hk, hkey]
  · intro x hx unseen
    refine ⟨rfl, Eq.trans (Component.holds_ofEntity x.entity) (List.map_congr_left fun f _ => ?_)⟩
    have content : Address.content ⟨(Component.ofEntity x.entity).kind,
        (Component.ofEntity x.entity).key, f⟩ (combined inputs) = [] :=
      content_of_componentOf_none (a := ⟨x.entity.kind, x.entity.key, f⟩) hfits unseen
    simp only [content]

end WorldMarkup
