import WorldMarkup.Proofs.Form.Declarations
import WorldMarkup.Proofs.Form.TextRuns

/-!
Laying forms over one another. A form is known by what each key stands for, by the order of its
keys and by its declarations, and each of these is laid over on its own. Main statement: it does
not matter in which order three forms are brought together, neither for whether they fit nor for
what comes of them, and a form without content changes nothing.
-/

set_option autoImplicit false
set_option relaxedAutoImplicit false

namespace WorldMarkup

/-! ### Components -/

namespace ComponentField

/-- Content added at the end of a field, its runs of text joined. -/
def follow (f g : ComponentField) : ComponentField := (f.extend g.node.children).joinText

theorem follow_follow {f g h : ComponentField} (hf : Forest.IsTidy f.node.children)
    (hg : Forest.IsTidy g.node.children) (hh : Forest.IsTidy h.node.children) :
    (f.follow g).follow h = f.follow (g.follow h) := by
  simp only [follow, extend, joinText, mk.injEq, Node.mk.injEq, true_and]
  rw [Forest.joinText_append_left (Forest.isTidy_append.2 ⟨hf, hg⟩).textsEnd hh.textsEnd.roots,
    Forest.joinText_append_right hf.textsEnd.roots (Forest.isTidy_append.2 ⟨hg, hh⟩).textsEnd,
    List.append_assoc]

end ComponentField

namespace Component

theorem updateField?_append {before fields : List ComponentField} {kind : FieldKind}
    {x : ComponentField} (hx : x.kind = kind) (new : ∀ f ∈ before, f.kind ≠ kind)
    (g : ComponentField → ComponentField) :
    updateField? kind g (before ++ x :: fields) = some (before ++ g x :: fields) := by
  induction before with
  | nil => simp [updateField?, hx]
  | cons f before ih =>
    obtain ⟨own, others⟩ := List.forall_mem_cons.1 new
    rw [List.cons_append, updateField?, if_neg own, ih others]
    rfl

theorem foldl_addField {fields later : List ComponentField}
    (kinds : fields.map ComponentField.kind = later.map ComponentField.kind)
    (once : (later.map ComponentField.kind).Nodup) :
    later.foldl addField fields =
      List.zipWith (fun f g => f.extend g.node.children) fields later := by
  have added (before : List ComponentField)
      (new : ∀ f ∈ before, f.kind ∉ later.map ComponentField.kind) :
      later.foldl addField (before ++ fields) =
        before ++ List.zipWith (fun f g => f.extend g.node.children) fields later := by
    induction later generalizing fields before with
    | nil => simp [List.map_eq_nil_iff.1 kinds]
    | cons g later ih =>
      cases fields with
      | nil => simp at kinds
      | cons f fields =>
        obtain ⟨own, kinds⟩ := List.cons.inj kinds
        obtain ⟨absent, once⟩ := List.nodup_cons.1 once
        have put : addField (before ++ f :: fields) g =
            (before ++ [f.extend g.node.children]) ++ fields := by
          rw [addField, updateField?_append own (fun x hx h => new x hx (by simp [h]))]
          simp
        rw [List.foldl_cons, put, ih kinds once, List.zipWith_cons_cons, List.append_assoc]
        · rfl
        · intro x hx
          rcases List.mem_append.1 hx with hx | hx
          · exact fun h => new x hx (by simp [h])
          · obtain rfl := List.mem_singleton.1 hx
            show f.kind ∉ _
            rwa [own]
  exact added [] (by simp)

variable {key : String} {c d e : Component}

theorem WellFormed.fields_tidy (h : c.WellFormed Forest.IsSettled key) :
    ∀ f ∈ c.fields, Forest.IsTidy f.node.children :=
  fun f hf => (Forest.isTidy_cons.1 (h.fields f hf).1).1.children

theorem absorb_fields (hc : c.WellFormed Forest.IsSettled key)
    (hd : d.WellFormed Forest.IsSettled key) (kind : c.kind = d.kind) :
    (c.absorb d).fields = List.zipWith ComponentField.follow c.fields d.fields := by
  have once : (d.fields.map ComponentField.kind).Nodup := by
    rw [hd.kinds]
    exact nodup_fields d.kind
  rw [absorb, foldl_addField (by rw [hc.kinds, hd.kinds, kind]) once, List.map_zipWith]
  rfl

theorem zipWith_follow {l m n : List ComponentField}
    (hl : ∀ f ∈ l, Forest.IsTidy f.node.children) (hm : ∀ f ∈ m, Forest.IsTidy f.node.children)
    (hn : ∀ f ∈ n, Forest.IsTidy f.node.children) :
    List.zipWith ComponentField.follow (List.zipWith ComponentField.follow l m) n =
      List.zipWith ComponentField.follow l (List.zipWith ComponentField.follow m n) := by
  induction l generalizing m n with
  | nil => simp
  | cons f l ih =>
    cases m with
    | nil => simp
    | cons g m =>
      cases n with
      | nil => simp
      | cons h n =>
        obtain ⟨hf, hl⟩ := List.forall_mem_cons.1 hl
        obtain ⟨hg, hm⟩ := List.forall_mem_cons.1 hm
        obtain ⟨hh, hn⟩ := List.forall_mem_cons.1 hn
        simp only [List.zipWith_cons_cons, ih hl hm hn, ComponentField.follow_follow hf hg hh]

/-- Three components of one kind may be laid over one another in either order. -/
theorem absorb_assoc (hc : c.WellFormed Forest.IsSettled key)
    (hd : d.WellFormed Forest.IsSettled key) (he : e.WellFormed Forest.IsSettled key)
    (hcd : c.kind = d.kind) (hde : d.kind = e.kind) :
    (c.absorb d).absorb e = c.absorb (d.absorb e) := by
  have gathers := Forest.gathers_isTidy.and Forest.gathers_isLocal
  have left := absorb_fields (hc.absorb gathers hd hcd) he (hcd.trans hde)
  have right := absorb_fields hc (hd.absorb gathers he hde) hcd
  rw [absorb_fields hc hd hcd] at left
  rw [absorb_fields hd he hde] at right
  have fields : ((c.absorb d).absorb e).fields = (c.absorb (d.absorb e)).fields := by
    rw [left, right, zipWith_follow hc.fields_tidy hd.fields_tidy he.fields_tidy]
  rw [absorb, absorb, mk.injEq]
  refine ⟨rfl, rfl, rfl, ?_, fields, ?_, ?_⟩
  · simp [absorb, Option.or_assoc]
  · simp [absorb, List.append_assoc]
  · simp [absorb, Option.or_assoc]

end Component

/-! ### What each key stands for -/

abbrev Component.either (c d : Option Component) : Option Component := c.merge Component.absorb d

namespace Form

/-- Keys that two forms share have one kind in both. -/
def Agrees (f later : Form) : Prop :=
  ∀ k c d, f.component? k = some c → later.component? k = some d → c.kind = d.kind

variable {P : Forest Tag → Prop} {f g later : Form} {c d : Component} {k : String}

theorem kind_merge {x y : Option Component} {z : Component} (h : Component.either x y = some z)
    (agree : ∀ c d, x = some c → y = some d → c.kind = d.kind) :
    (∀ c, x = some c ∨ y = some c → c.kind = z.kind) ∧ ∃ c, (x = some c ∨ y = some c) := by
  cases x with
  | none =>
    obtain rfl : y = some z := by simpa using h
    exact ⟨by simp, z, .inr rfl⟩
  | some c =>
    cases y with
    | none =>
      obtain rfl : c = z := by simpa using h
      exact ⟨by simp, c, .inl rfl⟩
    | some d =>
      obtain rfl : c.absorb d = z := by simpa using h
      have kind : c.kind = d.kind := agree c d rfl rfl
      refine ⟨?_, c, .inl rfl⟩
      rintro x (hx | hx)
      · rw [← Option.some.inj hx]
        rfl
      · rw [← Option.some.inj hx, ← kind]
        rfl

/-- A component is laid over a form exactly when its key has no other kind there. -/
theorem overlay_ok (agree : ∀ d, f.component? c.key = some d → d.kind = c.kind) :
    ∃ g, f.overlay c = .ok g := by
  unfold overlay
  split
  · rename_i existing found
    exact ⟨_, if_pos (agree existing found)⟩
  · exact ⟨_, rfl⟩

/-- What laying a component over a form does. -/
structure Overlays (f : Form) (c : Component) (g : Form) : Prop where
  agree : ∀ d, f.component? c.key = some d → d.kind = c.kind
  component? : ∀ k, g.component? k =
    if k = c.key then Component.either (f.component? k) (some c) else f.component? k
  order : g.order = if (f.component? c.key).isSome then f.order else f.order ++ [c.key]
  key : g.key = f.key
  kind : g.kind = f.kind

theorem overlays_of_overlay (h : f.overlay c = .ok g) : Overlays f c g := by
  unfold overlay at h
  split at h
  · rename_i existing found
    split at h
    · rename_i kind
      obtain rfl := Except.ok.inj h
      refine ⟨?_, ?_, by simp [found], rfl, rfl⟩
      · intro d hd
        rw [found] at hd
        rw [← Option.some.inj hd, kind]
      · intro k
        show ((putAt c.key (existing.absorb c) f.byKey).find? _).map _ = _
        rw [find?_putAt]
        split
        · rename_i own
          rw [own, found]
          rfl
        · rfl
    · simp at h
  · rename_i absent
    obtain rfl := Except.ok.inj h
    refine ⟨by simp [absent], ?_, rfl, rfl, rfl⟩
    intro k
    rw [component?_put]
    split
    · rename_i own
      rw [own, absent]
      rfl
    · rfl

/-- What laying components over a form, one after another, does. -/
structure OverlaysAll (f : Form) (cs : List Component) (g : Form) : Prop where
  agree : ∀ c ∈ cs, ∀ d, f.component? c.key = some d → d.kind = c.kind
  component? : ∀ k, g.component? k =
    Component.either (f.component? k) (cs.find? (fun c => c.key == k))
  order : g.order =
    f.order ++ (cs.map Component.key).filter (fun k => (f.component? k).isNone)
  key : g.key = f.key
  kind : g.kind = f.kind

variable {cs : List Component}

theorem overlaysAll_of_foldlM (once : (cs.map Component.key).Nodup)
    (h : cs.foldlM overlay f = .ok g) : OverlaysAll f cs g := by
  induction cs generalizing f with
  | nil =>
    obtain rfl := Except.ok.inj h
    exact ⟨by simp, by simp, by simp, rfl, rfl⟩
  | cons c cs ih =>
    rw [List.foldlM_cons] at h
    obtain ⟨next, hnext, hrest⟩ := Except.bind_eq_ok.1 h
    obtain ⟨new, once⟩ := List.nodup_cons.1 once
    have first := overlays_of_overlay hnext
    have rest := ih once hrest
    have other {d : Component} (hd : d ∈ cs) : next.component? d.key = f.component? d.key := by
      rw [first.component?, if_neg]
      exact fun own => new (own ▸ List.mem_map_of_mem hd)
    constructor
    · refine List.forall_mem_cons.2 ⟨first.agree, ?_⟩
      intro d hd
      rw [← other hd]
      exact rest.agree d hd
    · intro k
      rw [rest.component?, first.component?, List.find?_cons]
      by_cases own : k = c.key
      · have none : cs.find? (fun d => d.key == c.key) = none := by
          rw [List.find?_eq_none]
          intro d hd same
          exact new (List.mem_map.2 ⟨d, hd, by simpa using same⟩)
        simp [own, none]
      · have differs : (c.key == k) = false := beq_eq_false_iff_ne.2 (fun h => own h.symm)
        simp [own, differs]
    · have later : (cs.map Component.key).filter (fun k => (next.component? k).isNone) =
          (cs.map Component.key).filter (fun k => (f.component? k).isNone) := by
        refine List.filter_congr (fun k hk => ?_)
        obtain ⟨d, hd, rfl⟩ := List.mem_map.1 hk
        rw [other hd]
      rw [rest.order, later, first.order, List.map_cons, List.filter_cons]
      cases f.component? c.key <;> simp
    · rw [rest.key, first.key]
    · rw [rest.kind, first.kind]

theorem foldlM_overlay_ok (once : (cs.map Component.key).Nodup)
    (agree : ∀ c ∈ cs, ∀ d, f.component? c.key = some d → d.kind = c.kind) :
    ∃ g, cs.foldlM overlay f = .ok g := by
  induction cs generalizing f with
  | nil => exact ⟨f, rfl⟩
  | cons c cs ih =>
    obtain ⟨new, once⟩ := List.nodup_cons.1 once
    obtain ⟨own, others⟩ := List.forall_mem_cons.1 agree
    obtain ⟨next, hnext⟩ := overlay_ok own
    have first := overlays_of_overlay hnext
    obtain ⟨g, hg⟩ := ih (f := next) once (by
      intro d hd
      rw [first.component?, if_neg]
      · exact others d hd
      · exact fun own => new (own ▸ List.mem_map_of_mem hd))
    exact ⟨g, by rw [List.foldlM_cons, hnext]; exact hg⟩

theorem IsTable.keys_components (h : f.IsTable P) :
    f.components.map Component.key = f.order := by
  have keys (order : List String) (sub : ∀ k ∈ order, k ∈ f.order) :
      (order.filterMap f.component?).map Component.key = order := by
    induction order with
    | nil => rfl
    | cons k order ih =>
      obtain ⟨hk, others⟩ := List.forall_mem_cons.1 sub
      obtain ⟨c, hc⟩ := Option.isSome_iff_exists.1 (h.mem_order_iff.1 hk)
      rw [List.filterMap_cons, hc, List.map_cons, ih others, (h.component hc).key_eq]
  exact keys f.order (fun _ h => h)

theorem IsTable.find?_components (h : f.IsTable P) (k : String) :
    f.components.find? (fun c => c.key == k) = f.component? k := by
  have own {c : Component} (hc : c ∈ f.components) : f.component? c.key = some c := by
    obtain ⟨k', -, found⟩ := List.mem_filterMap.1 hc
    rwa [(h.component found).key_eq]
  rcases hfind : f.components.find? (fun c => c.key == k) with _ | c
  · rcases hk : f.component? k with _ | c
    · exact hfind
    · have listed : c ∈ f.components :=
        List.mem_filterMap.2 ⟨k, h.mem_order_iff.2 (by simp [hk]), hk⟩
      have := List.find?_eq_none.1 hfind c listed
      simp [(h.component hk).key_eq] at this
  · have key : c.key = k := by simpa using List.find?_some hfind
    rw [hfind, ← own (List.mem_of_find?_eq_some hfind), key]

/-! ### Laying one form over another -/

/-- What laying one form over another does. -/
structure Merges (f later g : Form) : Prop where
  agree : f.Agrees later
  component? : ∀ k, g.component? k = Component.either (f.component? k) (later.component? k)
  order : g.order = (f.order ++ later.order.filter (fun k => (f.component? k).isNone)).mergeSort
    (fun a b => g.kindPlace a ≤ g.kindPlace b)
  key : g.key = later.key
  kind : g.kind = later.kind
  imports : foldDeclarations (f.imports ++ later.imports) = .ok g.imports
  exports : foldDeclarations (f.exports ++ later.exports) = .ok g.exports

theorem merges_of_merge (hlater : later.IsTable P)
    (h : f.merge later = .ok g) : Merges f later g := by
  unfold merge at h
  obtain ⟨table, htable, h⟩ := Except.bind_eq_ok.1 h
  obtain ⟨imports, himports, h⟩ := Except.bind_eq_ok.1 h
  obtain ⟨exports, hexports, h⟩ := Except.bind_eq_ok.1 h
  obtain rfl := Except.ok.inj h
  have once : (later.components.map Component.key).Nodup := by
    rw [hlater.keys_components]
    exact hlater.once
  have laid := overlaysAll_of_foldlM once htable
  refine ⟨?_, ?_, ?_, laid.key, laid.kind, himports, hexports⟩
  · intro k c d hc hd
    have listed : d ∈ later.components :=
      List.mem_filterMap.2 ⟨k, hlater.mem_order_iff.2 (by simp [hd]), hd⟩
    apply laid.agree d listed
    rw [(hlater.component hd).key_eq]
    exact hc
  · intro k
    have := laid.component? k
    rwa [hlater.find?_components] at this
  · have order := laid.order
    rw [hlater.keys_components] at order
    show (table.sortOrder).order = _
    rw [sortOrder_eq, order]
    rfl

/-- One form can be laid over another when the keys agree and declarations grow. -/
theorem merge_ok (hlater : later.IsTable P) (agree : f.Agrees later) {imports exports : Forest Tag}
    (himports : foldDeclarations (f.imports ++ later.imports) = .ok imports)
    (hexports : foldDeclarations (f.exports ++ later.exports) = .ok exports) :
    ∃ g, f.merge later = .ok g := by
  have once : (later.components.map Component.key).Nodup := by
    rw [hlater.keys_components]
    exact hlater.once
  obtain ⟨table, htable⟩ := foldlM_overlay_ok
    (f := { key := later.key, kind := later.kind, byKey := f.byKey, order := f.order }) once (by
      intro c hc d hd
      obtain ⟨k, -, found⟩ := List.mem_filterMap.1 hc
      rw [(hlater.component found).key_eq] at hd
      exact agree k d c hd found)
  refine ⟨{ table.sortOrder with imports, exports }, ?_⟩
  unfold merge
  simp only [htable, himports, hexports]
  rfl

/-- Forms are known by what each key stands for, the order of keys and their declarations. -/
theorem ext_of_tables {f g : Form} (hf : f.IsTable P) (hg : g.IsTable P)
    (components : ∀ k, f.component? k = g.component? k) (order : f.order = g.order)
    (key : f.key = g.key) (kind : f.kind = g.kind) (imports : f.imports = g.imports)
    (exports : f.exports = g.exports) : f = g := by
  have entries : f.byKey = g.byKey := by
    apply List.Pairwise.eq_of_mem_iff hf.sorted hg.sorted
    rintro ⟨k, c⟩
    rw [← component?_eq_some hf.sorted, ← component?_eq_some hg.sorted, components]
  cases f
  cases g
  simp_all

/-! ### Forms that are settled throughout -/

/-- A well-formed form without edits or marks left in it, whose declarations are grown. -/
structure IsCanonical (f : Form) : Prop extends WellFormed Forest.IsSettled f where
  imported : Forest.IsDeclared f.imports
  exported : Forest.IsDeclared f.exports

variable {a b c ab bc x y : Form}

theorem isSettled_foldDeclarations {t u : Forest Tag} (h : Forest.IsSettled t)
    (folded : foldDeclarations t = .ok u) : Forest.IsSettled u := by
  refine ⟨?_, isLocal_foldDeclarations h.2 folded⟩
  rw [foldDeclarations_eq_ok folded]
  have standing := Forest.Stands.areStanding h.1 0
  exact standing.grown Tag.editable_standsTidily.toRespects []

theorem IsCanonical.merge_ok (hf : f.IsCanonical) (hlater : later.IsCanonical)
    (agree : f.Agrees later) : ∃ g, f.merge later = .ok g :=
  Form.merge_ok hlater.toIsTable agree (foldDeclarations_append hf.imported hlater.imported)
    (foldDeclarations_append hf.exported hlater.exported)

theorem eq_upon_of_fold {t u v : Forest Tag} (ht : Forest.IsDeclared t) (hu : Forest.IsDeclared u)
    (folded : foldDeclarations (t ++ u) = .ok v) : v = Forest.upon u t := by
  rw [foldDeclarations_append ht hu] at folded
  exact (Except.ok.inj folded).symm

theorem IsCanonical.imports_eq (hf : f.IsCanonical) (hlater : later.IsCanonical)
    (h : Merges f later g) : g.imports = Forest.upon later.imports f.imports :=
  eq_upon_of_fold hf.imported hlater.imported h.imports

theorem IsCanonical.exports_eq (hf : f.IsCanonical) (hlater : later.IsCanonical)
    (h : Merges f later g) : g.exports = Forest.upon later.exports f.exports :=
  eq_upon_of_fold hf.exported hlater.exported h.exports

/-- Laying one settled form over another gives a settled one. -/
theorem IsCanonical.merge (hf : f.IsCanonical) (hlater : later.IsCanonical)
    (h : f.merge later = .ok g) : g.IsCanonical := by
  have merges := merges_of_merge hlater.toIsTable h
  have gathers := Forest.gathers_isTidy.and Forest.gathers_isLocal
  refine ⟨hf.toWellFormed.merge gathers isSettled_foldDeclarations hlater.toWellFormed h, ?_, ?_⟩
  · rw [hf.imports_eq hlater merges]
    exact hlater.imported.upon hf.imported
  · rw [hf.exports_eq hlater merges]
    exact hlater.exported.upon hf.exported

/-! ### Three forms -/

theorem Merges.agrees_left (h : Merges a b ab) : ab.Agrees c ↔ a.Agrees c ∧ b.Agrees c := by
  constructor
  · intro agree
    have whole {k : String} {d e : Component} (hd : a.component? k = some d ∨ b.component? k = some d)
        (he : c.component? k = some e) : d.kind = e.kind := by
      cases hw : ab.component? k with
      | none =>
        rw [h.component?] at hw
        rcases hd with hd | hd <;> rw [hd] at hw <;> simp at hw
      | some w =>
        rw [h.component?] at hw
        rw [(kind_merge hw (fun d e => h.agree k d e)).1 d hd]
        exact agree k w e (by rw [h.component?, hw]) he
    exact ⟨fun k d e hd => whole (.inl hd), fun k d e hd => whole (.inr hd)⟩
  · rintro ⟨first, second⟩ k w e hw he
    rw [h.component?] at hw
    obtain ⟨kinds, d, hd⟩ := kind_merge hw (fun d e => h.agree k d e)
    rw [← kinds d hd]
    rcases hd with hd | hd
    · exact first k d e hd he
    · exact second k d e hd he

theorem Agrees.symm (h : a.Agrees b) : b.Agrees a :=
  fun k c d hc hd => (h k d c hd hc).symm

theorem Merges.agrees_right (h : Merges b c bc) : a.Agrees bc ↔ a.Agrees b ∧ a.Agrees c := by
  constructor
  · intro agree
    obtain ⟨first, second⟩ := h.agrees_left.1 agree.symm
    exact ⟨first.symm, second.symm⟩
  · rintro ⟨first, second⟩
    exact (h.agrees_left.2 ⟨first.symm, second.symm⟩).symm

theorem either_either (ha : a.IsCanonical) (hb : b.IsCanonical) (hc : c.IsCanonical)
    (hab : a.Agrees b) (hbc : b.Agrees c) (k : String) :
    Component.either (Component.either (a.component? k) (b.component? k)) (c.component? k) =
      Component.either (a.component? k) (Component.either (b.component? k) (c.component? k)) := by
  rcases hka : a.component? k with _ | u
  · simp
  · rcases hkb : b.component? k with _ | v
    · simp
    · rcases hkc : c.component? k with _ | w
      · simp
      · have laid := Component.absorb_assoc (ha.component hka) (hb.component hkb)
          (hc.component hkc) (hab k u v hka hkb) (hbc k v w hkb hkc)
        simp [laid]

theorem Merges.kindPlace_eq (h : Merges f later g) {k : String} {c : Component}
    (hc : f.component? k = some c ∨ later.component? k = some c) :
    g.kindPlace k = c.kind.rank + 1 := by
  cases hw : g.component? k with
  | none =>
    rw [h.component?] at hw
    rcases hc with hc | hc <;> rw [hc] at hw <;> simp at hw
  | some w =>
    have kinds := hw
    rw [h.component?] at kinds
    rw [(kind_merge kinds (fun d e => h.agree k d e)).1 c hc, kindPlace, hw]
    rfl

theorem kindPlace_congr (components : ∀ k, f.component? k = g.component? k) :
    f.kindPlace = g.kindPlace := by
  funext k
  rw [kindPlace, kindPlace, components]

theorem kindPlace_of_component? {k : String} {c : Component} (hc : f.component? k = some c) :
    f.kindPlace k = c.kind.rank + 1 := by
  simp [kindPlace, hc]

theorem Merges.mergeSort_eq (h : Merges f later g) {part : Form}
    (either : part = f ∨ part = later) {keys : List String}
    (known : ∀ k ∈ keys, (part.component? k).isSome = true) :
    keys.mergeSort (fun a b => part.kindPlace a ≤ part.kindPlace b) =
      keys.mergeSort (fun a b => g.kindPlace a ≤ g.kindPlace b) := by
  apply mergeSort_congr
  intro k hk
  obtain ⟨c, hc⟩ := Option.isSome_iff_exists.1 (known k hk)
  have own : f.component? k = some c ∨ later.component? k = some c := by
    rcases either with rfl | rfl
    · exact .inl hc
    · exact .inr hc
  rw [kindPlace_of_component? hc, h.kindPlace_eq own]

theorem Merges.known (h : Merges f later g) (hg : g.IsTable P) :
    ∀ k ∈ f.order ++ later.order.filter (fun k => (f.component? k).isNone),
      (g.component? k).isSome = true := by
  intro k hk
  apply hg.mem_order_iff.1
  rw [h.order]
  exact (List.mergeSort_perm _ _).mem_iff.2 hk

/-- Laying forms over one another gives the same form, whichever two come first. -/
theorem Merges.assoc (ha : a.IsCanonical) (hb : b.IsCanonical) (hc : c.IsCanonical)
    (hab : Merges a b ab) (hx : Merges ab c x) (hbc : Merges b c bc) (hy : Merges a bc y)
    (cab : ab.IsCanonical) (cbc : bc.IsCanonical) (cx : x.IsCanonical) (cy : y.IsCanonical) :
    x = y := by
  have components (k : String) : x.component? k = y.component? k := by
    rw [hx.component?, hab.component?, hy.component?, hbc.component?]
    exact either_either ha hb hc hab.agree hbc.agree k
  apply ext_of_tables cx.toIsTable cy.toIsTable components
  · have first := hx.mergeSort_eq (.inl rfl) (hab.known cab.toIsTable)
    have second := hy.mergeSort_eq (.inr rfl) (hbc.known cbc.toIsTable)
    rw [hx.order, hab.order, first, mergeSort_append_left, hy.order, hbc.order, second,
      mergeSort_append_right, kindPlace_congr components, List.filter_append, List.filter_filter,
      List.append_assoc]
    have new : c.order.filter (fun k => (ab.component? k).isNone) =
        c.order.filter (fun k => (a.component? k).isNone && (b.component? k).isNone) := by
      refine List.filter_congr (fun k _ => ?_)
      rw [hab.component?]
      cases a.component? k <;> cases b.component? k <;> rfl
    rw [new]
  · rw [hx.key, hy.key, hbc.key]
  · rw [hx.kind, hy.kind, hbc.kind]
  · rw [cab.imports_eq hc hx, ha.imports_eq hb hab, ha.imports_eq cbc hy, hb.imports_eq hc hbc]
    exact Forest.upon_assoc hc.imported.isKeyed hb.imported.isKeyed
  · rw [cab.exports_eq hc hx, ha.exports_eq hb hab, ha.exports_eq cbc hy, hb.exports_eq hc hbc]
    exact Forest.upon_assoc hc.exported.isKeyed hb.exported.isKeyed

/-- Documents give settled forms. -/
theorem isCanonical_standardize {inputs : List (Forest Tag)} (h : standardize inputs = .ok f) :
    f.IsCanonical := by
  obtain ⟨-, docs, declared, lifted, grown, imports, exports⟩ := isTable_standardize h
  refine ⟨wellFormed_standardize h, ?_, ?_⟩
  · rw [imports]
    exact Standardize.isDeclared_declarations lifted grown _
  · rw [exports]
    exact Standardize.isDeclared_declarations lifted grown _

theorem isCanonical_empty (key : String) (kind : ContainerKind) :
    IsCanonical { key, kind } :=
  ⟨⟨(isTable_of_empty rfl rfl).1, (isTable_of_empty (P := Forest.IsSettled) rfl rfl).2,
    ⟨Forest.isTidy_nil, Forest.isLocal_nil⟩, ⟨Forest.isTidy_nil, Forest.isLocal_nil⟩⟩,
    Forest.isDeclared_nil, Forest.isDeclared_nil⟩

theorem IsCanonical.eq_of_sorted (hf : f.IsCanonical) (hg : g.IsCanonical)
    (components : ∀ k, g.component? k = f.component? k)
    (order : g.order = f.order.mergeSort (fun a b => g.kindPlace a ≤ g.kindPlace b))
    (key : g.key = f.key) (kind : g.kind = f.kind) (imports : g.imports = f.imports)
    (exports : g.exports = f.exports) : g = f := by
  apply ext_of_tables hg.toIsTable hf.toIsTable components _ key kind imports exports
  rw [order, kindPlace_congr components]
  exact mergeSort_eq_of_isSorted (hf.toIsTable.isSorted hf.grouped) (fun _ => rfl)

theorem merge_empty_left (hf : f.IsCanonical) (key : String) (kind : ContainerKind) :
    Form.merge { key, kind } f = .ok f := by
  have empty := isCanonical_empty key kind
  obtain ⟨g, hg⟩ := empty.merge_ok hf (by simp [Agrees, component?])
  have merges := merges_of_merge hf.toIsTable hg
  have same : g = f := by
    apply hf.eq_of_sorted (empty.merge hf hg) _ _ merges.key merges.kind
    · rw [empty.imports_eq hf merges]
      exact Forest.upon_nil hf.imported.isKeyed
    · rw [empty.exports_eq hf merges]
      exact Forest.upon_nil hf.exported.isKeyed
    · intro k
      rw [merges.component?]
      cases f.component? k <;> rfl
    · have all : f.order.filter (fun k => (Form.component? { key, kind } k).isNone) = f.order :=
        List.filter_eq_self.2 (fun _ _ => rfl)
      rw [merges.order, all]
      rfl
  rw [hg, same]

theorem merge_empty_right (hf : f.IsCanonical) :
    f.merge { key := f.key, kind := f.kind } = .ok f := by
  have empty := isCanonical_empty f.key f.kind
  obtain ⟨g, hg⟩ := hf.merge_ok empty (by simp [Agrees, component?])
  have merges := merges_of_merge empty.toIsTable hg
  have same : g = f := by
    apply hf.eq_of_sorted (hf.merge empty hg) _ _ merges.key merges.kind
      (hf.imports_eq empty merges) (hf.exports_eq empty merges)
    · intro k
      rw [merges.component?]
      cases f.component? k <;> rfl
    · rw [merges.order, List.filter_nil, List.append_nil]
  rw [hg, same]

/-- Forms that come of documents, and of laying such forms over one another. -/
inductive IsMerged : Form → Prop
  | documents {inputs : List (Forest Tag)} {f : Form} (done : standardize inputs = .ok f) :
    IsMerged f
  | merged {f later g : Form} (first : IsMerged f) (second : IsMerged later)
    (done : f.merge later = .ok g) : IsMerged g

theorem IsMerged.isCanonical (h : f.IsMerged) : f.IsCanonical := by
  induction h with
  | documents done => exact isCanonical_standardize done
  | merged first second done ih ih' => exact ih.merge ih' done

theorem IsCanonical.merge_first_ok (ha : a.IsCanonical) (hb : b.IsCanonical)
    (hc : c.IsCanonical) (agree : a.Agrees b ∧ a.Agrees c ∧ b.Agrees c) :
    ∃ x, (a.merge b).bind (fun ab => ab.merge c) = .ok x := by
  obtain ⟨first, second, third⟩ := agree
  obtain ⟨ab, hab⟩ := ha.merge_ok hb first
  have merges := merges_of_merge hb.toIsTable hab
  obtain ⟨x, hx⟩ := (ha.merge hb hab).merge_ok hc (merges.agrees_left.2 ⟨second, third⟩)
  exact ⟨x, Except.bind_eq_ok.2 ⟨ab, hab, hx⟩⟩

theorem IsCanonical.merge_last_ok (ha : a.IsCanonical) (hb : b.IsCanonical)
    (hc : c.IsCanonical) (agree : a.Agrees b ∧ a.Agrees c ∧ b.Agrees c) :
    ∃ y, (b.merge c).bind (fun bc => a.merge bc) = .ok y := by
  obtain ⟨first, second, third⟩ := agree
  obtain ⟨bc, hbc⟩ := hb.merge_ok hc third
  have merges := merges_of_merge hc.toIsTable hbc
  obtain ⟨y, hy⟩ := ha.merge_ok (hb.merge hc hbc) (merges.agrees_right.2 ⟨first, second⟩)
  exact ⟨y, Except.bind_eq_ok.2 ⟨bc, hbc, hy⟩⟩

/-- Three forms may be brought together in either way: both fail, or both give the same form. A
form without content changes nothing. -/
theorem IsMerged.merge_assoc (ha : a.IsMerged) (hb : b.IsMerged) (hc : c.IsMerged) :
    ((a.merge b).bind (fun ab => ab.merge c)).toOption =
        ((b.merge c).bind (fun bc => a.merge bc)).toOption ∧
      (∀ key kind, Form.merge { key, kind } b = .ok b) ∧
      b.merge { key := b.key, kind := b.kind } = .ok b := by
  have ca := ha.isCanonical
  have cb := hb.isCanonical
  have cc := hc.isCanonical
  refine ⟨?_, merge_empty_left cb, merge_empty_right cb⟩
  rcases hp : (a.merge b).bind (fun ab => ab.merge c) with e | x
  · rcases hq : (b.merge c).bind (fun bc => a.merge bc) with e' | y
    · rfl
    · obtain ⟨bc, hbc, hy⟩ := Except.bind_eq_ok.1 hq
      have inner := merges_of_merge cc.toIsTable hbc
      have outer := merges_of_merge (cb.merge cc hbc).toIsTable hy
      obtain ⟨first, second⟩ := inner.agrees_right.1 outer.agree
      obtain ⟨x, hx⟩ := ca.merge_first_ok cb cc ⟨first, second, inner.agree⟩
      simp [hx] at hp
  · obtain ⟨ab, hab, hx⟩ := Except.bind_eq_ok.1 hp
    have cab := ca.merge cb hab
    have inner := merges_of_merge cb.toIsTable hab
    have outer := merges_of_merge cc.toIsTable hx
    obtain ⟨second, third⟩ := inner.agrees_left.1 outer.agree
    obtain ⟨y, hq⟩ := ca.merge_last_ok cb cc ⟨inner.agree, second, third⟩
    obtain ⟨bc, hbc, hy⟩ := Except.bind_eq_ok.1 hq
    have cbc := cb.merge cc hbc
    obtain rfl : x = y := Merges.assoc ca cb cc inner outer (merges_of_merge cc.toIsTable hbc)
      (merges_of_merge cbc.toIsTable hy) cab cbc (cab.merge cc hx) (ca.merge cbc hy)
    rw [hq]

/-- A hall that is imported, and what one document says of it. -/
def hallSaying (value : String) : List (Forest Tag) :=
  [[.branch (.asset "house")
    [.branch (.imported "castle") [.leaf (.room "hall")],
      .branch (.room "hall") [.branch (.field .description) [.leaf (.text value)]]]]]

theorem IsMerged.merge_assoc_hallSaying :
    ∃ a b c x, standardize (hallSaying "You ") = .ok a ∧ standardize (hallSaying "see ") = .ok b ∧
      standardize (hallSaying "nobody.") = .ok c ∧
      (a.merge b).bind (fun ab => ab.merge c) = .ok x ∧
      (b.merge c).bind (fun bc => a.merge bc) = .ok x ∧
      ((x.component? "hall").bind (fun c => c.field? .description)).map Node.children =
        some [.leaf (.text "You see nobody.")] := by
  have found : ((standardize (hallSaying "You ")).toOption.bind fun a =>
      (standardize (hallSaying "see ")).toOption.bind fun b =>
        (standardize (hallSaying "nobody.")).toOption.bind fun c =>
          ((a.merge b).bind (fun ab => ab.merge c)).toOption.map fun x =>
            ((x.component? "hall").bind (fun c => c.field? .description)).map Node.children) =
      some (some [.leaf (.text "You see nobody.")]) := by
    cbv
  cases ha : standardize (hallSaying "You ") with
  | error e => simp [ha, Except.toOption] at found
  | ok a =>
    cases hb : standardize (hallSaying "see ") with
    | error e => simp [ha, hb, Except.toOption] at found
    | ok b =>
      cases hc : standardize (hallSaying "nobody.") with
      | error e => simp [ha, hb, hc, Except.toOption] at found
      | ok c =>
        have same := (IsMerged.merge_assoc (.documents ha) (.documents hb) (.documents hc)).1
        cases hx : (a.merge b).bind (fun ab => ab.merge c) with
        | error e => simp [ha, hb, hc, hx, Except.toOption] at found
        | ok x =>
          cases hy : (b.merge c).bind (fun bc => a.merge bc) with
          | error e => simp [hx, hy, Except.toOption] at same
          | ok y =>
            obtain rfl : x = y := by simpa [hx, hy, Except.toOption] using same
            exact ⟨a, b, c, x, rfl, rfl, rfl, hx, hy,
              by simpa [ha, hb, hc, hx, Except.toOption] using found⟩

end Form

end WorldMarkup
