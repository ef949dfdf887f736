import WorldMarkup.Proofs.Form.Branches
import WorldMarkup.Proofs.Form.Completion

/-!
The completed paths of a component in the slot of one field. Main statement: less what is above
the field, they are the tails of the content in that field.
-/

set_option autoImplicit false
set_option relaxedAutoImplicit false

namespace WorldMarkup

open Ownership (untilNested ownedPath? slot?)
open SplitChain

namespace Path

/-- A path outside of imports and exports. -/
def IsContent (p : Path Tag) : Prop := ∀ s ∈ p, Standardize.isDeclaration s.data = false

instance (p : Path Tag) : Decidable p.IsContent :=
  inferInstanceAs (Decidable (∀ s ∈ p, Standardize.isDeclaration s.data = false))

end Path

namespace Address

variable (a : Address) (seenPaths : List (Path Tag))

/-- Whether the field's copy of a conditional lacks a branch. -/
def lacks (s : Site) : Bool :=
  decide ((s.wrapper, some a.field) ∈ reach a.kind seenPaths ∧
    (s.branch, some a.field) ∉ present a.kind seenPaths)

/-- What is shown in the field of one path: its own content there, or what stands in for branches
first met on it. -/
def shownOf (seen : List Nat) (o : Path Tag) : List (Path Tag) :=
  if slot? a.kind o = some a.field then [o.kept]
  else ((firsts Site.branch seen (sites o)).filter (a.lacks seenPaths)).map (fun s => s.path.kept)

/-- What is shown in the field of paths in order. -/
def shown (seen : List Nat) : List (Path Tag) → List (Path Tag)
  | [] => []
  | o :: rest =>
    a.shownOf seenPaths seen o ++ shown (((sites o).map Site.branch).reverse ++ seen) rest

variable {a seenPaths}

theorem shown_append (seen : List Nat) (l m : List (Path Tag)) :
    a.shown seenPaths seen (l ++ m) = a.shown seenPaths seen l ++
      a.shown seenPaths ((l.flatMap (fun o => (sites o).map Site.branch)).reverse ++ seen) m := by
  induction l generalizing seen with
  | nil => rfl
  | cons o l ih => simp [shown, ih]

/-! ### What is seen is a content path -/

theorem runs_untilNested {c : Option EntityKind} {q : Path Tag} (h : Path.Runs c q) :
    Path.Runs c (untilNested q) := by
  induction h with
  | stop => exact .stop
  | @entity c s rest e hs _ _ =>
    have hcut : untilNested (s :: rest) = [⟨.entity e.withoutSource, {}, s.origin⟩] := by
      simp [untilNested, hs, Tag.entity?, Tag.withoutSource]
    rw [hcut]
    exact .entity rfl .stop
  | @choice c w b rest hw hb _ ih =>
    have hwe : w.data.entity? = none := by rw [hw]; rfl
    have hbe : b.data.entity? = none := by
      cases hd : b.data <;> simp_all [Tag.category, Tag.entity?]
    simpa [untilNested, hwe, hbe] using Path.Runs.choice hw hb ih
  | @field k s rest g hs hg inner =>
    have hcut : untilNested (s :: rest) = s :: rest := by
      refine untilNested_eq_self (fun x hx => ?_)
      rcases List.mem_cons.1 hx with rfl | hx
      · simp [hs, Tag.entity?]
      · exact entity?_of_isKept (inner x hx)
    rw [hcut]
    exact .field hs hg inner
  | @item k s hs =>
    have he : s.data.entity? = none := by
      cases hd : s.data <;> simp_all [Tag.category, Tag.entity?]
    simpa [untilNested, he] using Path.Runs.item hs

theorem runs_filter_chain {c : Option EntityKind} {X q : Path Tag} (hX : X.IsTrunk)
    (hq : Path.Runs c q) :
    Path.Runs c (List.filter (fun s => s.data.isChain) X ++ q) := by
  induction hX with
  | nil => exact hq
  | @entity s rest hs _ ih =>
    have hchain : s.data.isChain = false := by
      cases hd : s.data <;> simp_all [Tag.entity?, Tag.isChain]
    simpa [hchain] using ih
  | @choice w b rest hw hb _ ih =>
    have hwc : w.data.isChain = true := by rw [hw]; rfl
    have hbc := isChain_of_branch hb
    simpa [List.filter_cons, hwc, hbc] using Path.Runs.choice hw hb ih

theorem runs_ownedPath? {p o : Path Tag} (h : Path.Runs none p)
    (ho : ownedPath? a.kind a.key p = some o) : Path.Runs none o := by
  obtain ⟨above, t, below, rfl, ht, -, hcase⟩ := ownedPath?_cases ho
  obtain ⟨e, he, -, -⟩ := exists_entity_of_isTarget ht
  obtain ⟨hA, hB⟩ := h.split he
  rcases hcase with ⟨-, rfl⟩ | ⟨-, rfl⟩
  · exact .entity he .stop
  · exact runs_filter_chain hA (.entity he (runs_untilNested hB))

/-- What follows a conditional is no field. -/
theorem field?_after_conditional {c : Option EntityKind} {x y : Path Tag} {w b : Step Tag}
    (hw : w.data = .conditional) (h : Path.Runs c (x ++ w :: b :: y)) : b.data.field? = none := by
  generalize hp : x ++ w :: b :: y = p at h
  induction h generalizing x with
  | stop => simp at hp
  | @entity c s rest e hs _ ih =>
    rcases x with _ | ⟨z, x⟩
    · simp only [List.nil_append, List.cons.injEq] at hp
      obtain ⟨rfl, -⟩ := hp
      simp [hw] at hs
    · simp only [List.cons_append, List.cons.injEq] at hp
      exact ih hp.2
  | @choice c v d rest hv hd _ ih =>
    have hdf : d.data.field? = none := by
      cases hd' : d.data <;> simp_all [Tag.category, Tag.field?]
    rcases x with _ | ⟨z, _ | ⟨z', x⟩⟩
    · simp only [List.nil_append, List.cons.injEq] at hp
      obtain ⟨rfl, rfl, rfl⟩ := hp
      exact hdf
    · simp only [List.cons_append, List.nil_append, List.cons.injEq] at hp
      obtain ⟨rfl, rfl, -⟩ := hp
      simp [hw, Tag.category] at hd
    · simp only [List.cons_append, List.cons.injEq] at hp
      exact ih hp.2.2
  | @field k s rest g hs _ inner =>
    rcases x with _ | ⟨z, x⟩
    · simp only [List.nil_append, List.cons.injEq] at hp
      obtain ⟨rfl, -⟩ := hp
      simp [hw] at hs
    · simp only [List.cons_append, List.cons.injEq] at hp
      obtain ⟨rfl, rfl⟩ := hp
      exact field?_of_isKept (inner b (by simp))
  | @item k s hs =>
    rcases x with _ | ⟨z, x⟩
    · simp at hp
    · simp at hp

theorem hasField_of_mem {c : Option EntityKind} {q : Path Tag} (h : Path.Runs c q) {k : EntityKind}
    (hc : c = some k) {x : Step Tag} (hx : x ∈ untilNested q) {g : FieldKind}
    (hg : x.data.field? = some g) : k.hasField g = true := by
  induction h with
  | stop => simp [untilNested] at hx
  | @entity c s rest e hs _ _ =>
    have hcut : untilNested (s :: rest) = [⟨.entity e.withoutSource, {}, s.origin⟩] := by
      simp [untilNested, hs, Tag.entity?, Tag.withoutSource]
    rw [hcut] at hx
    obtain rfl := List.mem_singleton.1 hx
    simp [Tag.field?] at hg
  | @choice c w b rest hw hb _ ih =>
    have hwe : w.data.entity? = none := by rw [hw]; rfl
    have hbe : b.data.entity? = none := by
      cases hd : b.data <;> simp_all [Tag.category, Tag.entity?]
    have hcut : untilNested (w :: b :: rest) = w :: b :: untilNested rest := by
      simp [untilNested, hwe, hbe]
    rw [hcut] at hx
    simp only [List.mem_cons] at hx
    rcases hx with rfl | rfl | hx
    · simp [hw, Tag.field?] at hg
    · cases hd : x.data <;> simp_all [Tag.category, Tag.field?]
    · exact ih hc hx
  | @field k' s rest g' hs hg' inner =>
    obtain rfl : k' = k := by simpa using hc
    have hcut : untilNested (s :: rest) = s :: rest := by
      refine untilNested_eq_self (fun y hy => ?_)
      rcases List.mem_cons.1 hy with rfl | hy
      · simp [hs, Tag.entity?]
      · exact entity?_of_isKept (inner y hy)
    rw [hcut] at hx
    rcases List.mem_cons.1 hx with rfl | hx
    · simp only [hs, Tag.field?, Option.some.injEq] at hg
      rwa [← hg]
    · rw [field?_of_isKept (inner x hx)] at hg
      exact absurd hg (by simp)
  | @item k' s hs =>
    have he : s.data.entity? = none := by
      cases hd : s.data <;> simp_all [Tag.category, Tag.entity?]
    have hcut : untilNested [s] = [s] := by simp [untilNested, he]
    rw [hcut] at hx
    obtain rfl := List.mem_singleton.1 hx
    cases hd : x.data <;> simp_all [Tag.category, Tag.field?]

theorem slot?_isSome_of_mem {p o : Path Tag} (h : Path.Runs none p)
    (ho : ownedPath? a.kind a.key p = some o) {x : Step Tag} (hx : x ∈ o)
    (hf : x.data.field?.isSome = true) : (slot? a.kind o).isSome = true := by
  obtain ⟨g, hg⟩ := Option.isSome_iff_exists.1 hf
  obtain ⟨above, t, below, rfl, ht, -, hcase⟩ := ownedPath?_cases ho
  obtain ⟨e, he, hkind, -⟩ := exists_entity_of_isTarget ht
  obtain ⟨-, hB⟩ := h.split he
  rw [hkind] at hB
  have htf : t.data.field? = none := by rw [he]; rfl
  rw [slot?, List.findSome?_isSome_iff]
  refine ⟨x, hx, ?_⟩
  rcases hcase with ⟨-, rfl⟩ | ⟨-, rfl⟩
  · obtain rfl := List.mem_singleton.1 hx
    simp [htf] at hg
  · rcases List.mem_append.1 hx with hx | hx
    · have hc := (List.mem_filter.1 hx).2
      cases hd : x.data <;> simp_all [Tag.isChain, Tag.field?]
    · rcases List.mem_cons.1 hx with rfl | hx
      · simp [htf] at hg
      · simp [hg, hasField_of_mem hB rfl hx hg]

theorem mem_of_mem_untilNested {q : Path Tag} {x : Step Tag} (hx : x ∈ untilNested q)
    (he : x.data.entity? = none) : x ∈ q := by
  induction q with
  | nil => simp [untilNested] at hx
  | cons s q ih =>
    by_cases hs : s.data.entity?.isSome = true
    · simp only [untilNested, hs, if_true, List.mem_singleton] at hx
      subst hx
      cases hd : s.data <;> simp_all [Tag.entity?, Tag.withoutSource]
    · have hs : s.data.entity?.isSome = false := by simpa using hs
      simp only [untilNested, hs, Bool.false_eq_true, if_false, List.mem_cons] at hx
      rcases hx with rfl | hx
      · simp
      · exact List.mem_cons_of_mem _ (ih hx)

theorem mem_of_mem_ownedPath? {p o : Path Tag} (ho : ownedPath? a.kind a.key p = some o)
    {x : Step Tag} (hx : x ∈ o) (he : x.data.entity? = none) : x ∈ p := by
  obtain ⟨above, t, below, rfl, -, -, hcase⟩ := ownedPath?_cases ho
  rcases hcase with ⟨-, rfl⟩ | ⟨-, rfl⟩
  · simp [List.mem_singleton.1 hx]
  · rcases List.mem_append.1 hx with hx | hx
    · simp [(List.mem_filter.1 hx).1]
    · rcases List.mem_cons.1 hx with rfl | hx
      · simp
      · simp [mem_of_mem_untilNested hx he]

/-! ### Stand-ins -/

theorem after?_of_leadsPath {place : Place} {x y : Path Tag}
    (h : a.leadsPath place (x ++ y) = true) {s : Step Tag} (hs : s ∈ x)
    (hf : s.data.field?.isSome = true) : a.after? place x = some .within := by
  have hstay (q : Path Tag) : a.after? .within q = some .within := by
    induction q with
    | nil => rfl
    | cons z q ih => simp [after?, next?_within, ih]
  induction x generalizing place with
  | nil => simp at hs
  | cons z x ih =>
    rcases hz : a.next? place z.data with _ | below
    · simp [leadsPath, hz] at h
    · simp only [List.cons_append, leadsPath, hz] at h
      simp only [after?, hz, Option.bind_some]
      by_cases hw : below = .within
      · subst hw
        exact hstay x
      · rcases List.mem_cons.1 hs with rfl | hs
        · exfalso
          cases hd : s.data <;> simp_all [Tag.field?]
          cases place <;> simp_all [next?]
        · exact ih h hs

/-- Content paths; two of them through nodes of one number agree down to it. -/
structure AreContent (docs : List (Path Tag)) : Prop where
  runs : ∀ p ∈ docs, Path.Runs none p
  agree : ∀ {x y x' y' : Path Tag} {s s' : Step Tag}, x ++ s :: y ∈ docs →
    x' ++ s' :: y' ∈ docs → s.origin = s'.origin → x = x' ∧ s = s'

variable {docs : List (Path Tag)}

/-- The paths of a component. -/
def view (a : Address) (docs : List (Path Tag)) : List (Path Tag) :=
  docs.filterMap (ownedPath? a.kind a.key)

theorem mem_view {o : Path Tag} :
    o ∈ a.view docs ↔ ∃ p ∈ docs, ownedPath? a.kind a.key p = some o := by
  simp [view, List.mem_filterMap]

/-- A conditional below a field reaches no slot but that of the field. -/
theorem slot?_of_origin_eq (hdocs : AreContent docs) {o' x y : Path Tag} {w b w' s : Step Tag}
    (ho : x ++ w :: b :: y ∈ a.view docs) (hs : s ∈ x) (hf : s.data.field?.isSome = true)
    (ho' : o' ∈ a.view docs) (hw' : w' ∈ o') (hc' : w'.data = .conditional)
    (h : w.origin = w'.origin) {g : FieldKind}
    (hslot : slot? a.kind (x ++ w :: b :: y) = some g) : slot? a.kind o' = some g := by
  obtain ⟨p, hp, hown⟩ := mem_view.1 ho
  obtain ⟨p', hp', hown'⟩ := mem_view.1 ho'
  let a' : Address := ⟨a.kind, a.key, g⟩
  have hlead : a'.leadsPath .outside p = true :=
    (leadsPath_iff_slot? (hdocs.runs p hp)).2 ⟨_, hown, hslot⟩
  obtain ⟨above, t, below, rfl, ht, -, -, -, hseen⟩ :=
    exists_of_leadsPath (hdocs.runs p hp) hlead
  obtain ⟨e, he, -, -⟩ := exists_entity_of_isTarget ht
  have heq : x ++ w :: b :: y = List.filter (fun s => s.data.isChain) above ++ t :: below :=
    Option.some.inj (hown.symm.trans hseen)
  -- The field stands below the component, and so does the conditional.
  obtain ⟨x', hx', hbelow⟩ : ∃ x', x = List.filter (fun s => s.data.isChain) above ++ t :: x' ∧
      below = x' ++ w :: b :: y := by
    have hsplit : x ++ w :: b :: y =
        (List.filter (fun s => s.data.isChain) above ++ [t]) ++ below := by simpa using heq
    rcases List.append_eq_append_iff.1 hsplit with ⟨m, hm, -⟩ | ⟨m, hm, hrest⟩
    · exfalso
      have hmem : s ∈ List.filter (fun s : Step Tag => s.data.isChain) above ++ [t] := by
        rw [hm]
        exact List.mem_append_left _ hs
      rcases List.mem_append.1 hmem with hmem | hmem
      · have := (List.mem_filter.1 hmem).2
        cases hd : s.data <;> simp_all [Tag.isChain, Tag.field?]
      · obtain rfl := List.mem_singleton.1 hmem
        simp [he, Tag.field?] at hf
    · exact ⟨m, by simpa using hm, hrest⟩
  have hsx : s ∈ above ++ t :: x' := by
    rw [hx'] at hs
    rcases List.mem_append.1 hs with hs | hs
    · exact List.mem_append_left _ (List.mem_filter.1 hs).1
    · exact List.mem_append_right _ hs
  have hpath : above ++ t :: below = (above ++ t :: x') ++ w :: (b :: y) := by simp [hbelow]
  rw [hpath] at hp hlead
  have hwithin := after?_of_leadsPath hlead hsx hf
  have hw'p := mem_of_mem_ownedPath? hown' hw' (by rw [hc']; rfl)
  obtain ⟨z, z', rfl⟩ := List.append_of_mem hw'p
  obtain ⟨rfl, rfl⟩ := hdocs.agree hp hp' h
  have hlead' : a'.leadsPath .outside ((above ++ t :: x') ++ w :: z') = true := by
    rw [leadsPath_append hwithin, leadsPath_within]
  obtain ⟨o'', ho'', hslot''⟩ := (leadsPath_iff_slot? (hdocs.runs _ hp')).1 hlead'
  have hoo : o'' = o' := Option.some.inj (ho''.symm.trans hown')
  rw [← hoo]
  exact hslot''

theorem field?_of_lacking (hdocs : AreContent docs) {o : Path Tag} (ho : o ∈ a.view docs)
    {s : Site} (hs : s ∈ sites o) {r : Nat × Slot} (hr : r ∈ lacking a.kind (a.view docs) s) :
    ∀ x ∈ s.path, x.data.field? = none := by
  intro x hx
  rcases hf : x.data.field? with _ | g
  · rfl
  · exfalso
    obtain ⟨u, w, b, v, rfl, hw, hwrapper, hbranch, hpath⟩ := exists_of_mem_sitesFrom hs
    obtain ⟨p, hp, hown⟩ := mem_view.1 ho
    have hruns := runs_ownedPath? (hdocs.runs p hp) hown
    have hxu : x ∈ u := by
      rw [hpath] at hx
      simp only [List.nil_append, List.mem_append, List.mem_cons, List.not_mem_nil,
        or_false] at hx
      rcases hx with hx | rfl | rfl
      · exact hx
      · simp [hw, Tag.field?] at hf
      · rw [field?_after_conditional hw hruns] at hf
        simp at hf
    have hfx : x.data.field?.isSome = true := by simp [hf]
    obtain ⟨g', hslot⟩ := Option.isSome_iff_exists.1
      (slot?_isSome_of_mem (hdocs.runs p hp) hown (List.mem_append_left _ hxu) hfx)
    simp only [lacking, List.mem_filter, Bool.not_eq_true', beq_iff_eq] at hr
    obtain ⟨⟨hreach, hr1⟩, hpresent⟩ := hr
    obtain ⟨o', ho', hslot', w', hw', hc', horigin⟩ := exists_of_mem_reach hreach
    have hsame := slot?_of_origin_eq hdocs ho hxu hfx ho' hw' hc'
      (by rw [horigin, hr1, hwrapper]) hslot
    rw [hsame] at hslot'
    have hin : (s.branch, r.2) ∈ present a.kind (a.view docs) := by
      rw [← hslot']
      exact mem_present_field.2 ⟨_, ho, hslot, s, hs, rfl⟩
    simp [hin] at hpresent

theorem fieldStep_spec {kind : EntityKind} {paths : List (Path Tag)} {g : FieldKind}
    (h : ∃ p ∈ paths, slot? kind p = some g) :
    ∃ x, fieldStep kind paths g = some x ∧ x.data.field? = some g ∧ kind.hasField g = true := by
  rcases hfind : paths.find? (fun p => slot? kind p == some g) with _ | p
  · obtain ⟨p, hp, hslot⟩ := h
    have := List.find?_eq_none.1 hfind p hp
    simp [hslot] at this
  · have hslot : slot? kind p = some g := by simpa using List.find?_some hfind
    obtain ⟨y, hy, hyg⟩ := List.exists_of_findSome?_eq_some hslot
    obtain ⟨hyf, hhas⟩ := Option.filter_eq_some_iff.1 hyg
    rcases hx : List.find? (fun s : Step Tag => s.data.field? == some g) p with _ | x
    · have := List.find?_eq_none.1 hx y hy
      simp [hyf] at this
    · exact ⟨x, by simp [fieldStep, hfind, hx], by simpa using List.find?_some hx, hhas⟩

theorem targetStep_isTarget {paths : List (Path Tag)} {t : Step Tag}
    (h : targetStep a.kind a.key paths = some t) : a.isTarget t.data = true := by
  have ht := List.find?_some h
  exact ht

/-- What stands in for a branch above all fields stands in the slot it is for, and shows the
branch. -/
theorem placeholder_spec (paths : List (Path Tag)) (slot : Slot) {p : Path Tag}
    (hno : ∀ x ∈ p, x.data.field? = none)
    (hslot : ∀ g, slot = some g → ∃ q ∈ paths, slot? a.kind q = some g) :
    slot? a.kind (placeholder a.kind a.key (targetStep a.kind a.key paths)
      (slot.bind (fieldStep a.kind paths)) p) = slot ∧
    Path.kept (placeholder a.kind a.key (targetStep a.kind a.key paths)
      (slot.bind (fieldStep a.kind paths)) p) = p.kept := by
  have hentity {t : Step Tag} (ht : t ∈ (targetStep a.kind a.key paths).toList) :
      t.data.field? = none ∧ t.data.isKept = false := by
    obtain ⟨e, he, -, -⟩ := exists_entity_of_isTarget
      (targetStep_isTarget (Option.mem_toList.1 ht))
    rw [he]
    exact ⟨rfl, rfl⟩
  have main {q : Path Tag} (hq : ∀ x ∈ q, x.data.field? = none) (hkept : q.kept = p.kept) :
      slot? a.kind (if q.any (fun s => s.data.field?.isSome) then q
        else q ++ (slot.bind (fieldStep a.kind paths)).toList) = slot ∧
      Path.kept (if q.any (fun s => s.data.field?.isSome) then q
        else q ++ (slot.bind (fieldStep a.kind paths)).toList) = p.kept := by
    have hany : q.any (fun s => s.data.field?.isSome) = false := by
      rw [List.any_eq_false]
      intro x hx
      simp [hq x hx]
    have hnone : q.findSome? (fun s => s.data.field?.filter a.kind.hasField) = none := by
      refine List.findSome?_eq_none_iff.2 (fun x hx => ?_)
      simp [hq x hx]
    rw [hany]
    rcases slot with _ | g
    · simp [slot?, hnone, hkept]
    · obtain ⟨x, hx, hxg, hhas⟩ := fieldStep_spec (hslot g rfl)
      have hk : x.data.isKept = false := by
        cases hd : x.data <;> simp_all [Tag.field?, Tag.isKept, Tag.isChain, Tag.category]
      simp only [Option.bind_some, hx, Option.toList_some, Bool.false_eq_true, if_false,
        kept_append, hkept]
      refine ⟨?_, by simp [Path.kept, hk]⟩
      simp [slot?, List.findSome?_append, hnone, hxg, hhas]
  unfold placeholder
  split
  · exact main hno rfl
  · refine main ?_ ?_
    · intro x hx
      rcases List.mem_append.1 hx with hx | hx
      · exact hno x hx
      · exact (hentity hx).1
    · rw [kept_append]
      have : Path.kept (targetStep a.kind a.key paths).toList = [] :=
        List.filter_eq_nil_iff.2 (fun x hx => by simp [(hentity hx).2])
      simp [this]

theorem filter_lacking {paths : List (Path Tag)} (s : Site) :
    (lacking a.kind paths s).filter (fun r => decide (r.2 = some a.field)) =
      if a.lacks paths s then [(s.wrapper, some a.field)] else [] := by
  have hfilter : (lacking a.kind paths s).filter (fun r => decide (r.2 = some a.field)) =
      (reach a.kind paths).filter (fun r => (r == (s.wrapper, some a.field)) &&
        decide ((s.branch, some a.field) ∉ present a.kind paths)) := by
    rw [lacking, List.filter_filter, List.filter_filter]
    refine List.filter_congr (fun r _ => ?_)
    by_cases h2 : r.2 = some a.field
    · by_cases h1 : r.1 = s.wrapper
      · have hr : r = (s.wrapper, some a.field) := Prod.ext h1 h2
        simp [hr]
      · have hr : (r == (s.wrapper, some a.field)) = false :=
          beq_eq_false_iff_ne.2 (fun h => h1 (by rw [h]))
        have h1 : (r.1 == s.wrapper) = false := beq_eq_false_iff_ne.2 h1
        simp only [hr, h1, Bool.and_false, Bool.false_and]
    · have hr : (r == (s.wrapper, some a.field)) = false :=
        beq_eq_false_iff_ne.2 (fun h => h2 (by rw [h]))
      simp only [hr, h2, decide_false, Bool.false_and]
  rw [hfilter]
  have hnodup : (reach a.kind paths).Nodup := nodup_eraseDups _
  by_cases hp : (s.branch, some a.field) ∈ present a.kind paths
  · simp [lacks, hp]
  · by_cases hr : (s.wrapper, some a.field) ∈ reach a.kind paths
    · have hlacks : a.lacks paths s = true := by simp [lacks, hp, hr]
      simp only [hlacks, if_true, hp, not_false_eq_true, decide_true, Bool.and_true]
      rw [List.filter_beq, hnodup.count, if_pos hr]
      rfl
    · have hlacks : a.lacks paths s = false := by simp [lacks, hr]
      simp only [hlacks, Bool.false_eq_true, if_false]
      refine List.filter_eq_nil_iff.2 (fun r hmem => ?_)
      simp only [Bool.and_eq_true, beq_iff_eq, decide_eq_true_eq, not_and]
      rintro rfl
      exact absurd hmem hr

theorem flatMap_eq_map_filter {β γ : Type} {f : β → List γ} {p : β → Bool} {g : β → γ}
    {l : List β} (h : ∀ x ∈ l, f x = if p x then [g x] else []) :
    l.flatMap f = (l.filter p).map g := by
  induction l with
  | nil => rfl
  | cons x l ih =>
    rw [List.flatMap_cons, h x (by simp), ih (fun y hy => h y (by simp [hy])), List.filter_cons]
    split <;> simp

theorem filter_standIns (hdocs : AreContent docs) {o : Path Tag} (ho : o ∈ a.view docs) {s : Site}
    (hs : s ∈ sites o) :
    ((standIns a.kind a.key (a.view docs) s).filter
      (fun q => decide (slot? a.kind q = some a.field))).map Path.kept =
      if a.lacks (a.view docs) s then [s.path.kept] else [] := by
  have hspec (r : Nat × Slot) (hr : r ∈ lacking a.kind (a.view docs) s) :=
    placeholder_spec (a := a) (a.view docs) r.2 (field?_of_lacking hdocs ho hs hr) (by
        intro g hg
        have hreach : r ∈ reach a.kind (a.view docs) := by
          simp only [lacking, List.mem_filter] at hr
          exact hr.1.1
        obtain ⟨q, hq, hslot, -⟩ := exists_of_mem_reach hreach
        exact ⟨q, hq, by rw [hslot, hg]⟩)
  have hfilter : (lacking a.kind (a.view docs) s).filter (fun r => decide (slot? a.kind
        (placeholder a.kind a.key (targetStep a.kind a.key (a.view docs))
          (r.2.bind (fieldStep a.kind (a.view docs))) s.path) = some a.field)) =
      (lacking a.kind (a.view docs) s).filter (fun r => decide (r.2 = some a.field)) :=
    List.filter_congr (fun r hr => by rw [(hspec r hr).1])
  have hmap : ((lacking a.kind (a.view docs) s).filter
        (fun r => decide (r.2 = some a.field))).map (fun r => Path.kept
          (placeholder a.kind a.key (targetStep a.kind a.key (a.view docs))
            (r.2.bind (fieldStep a.kind (a.view docs))) s.path)) =
      ((lacking a.kind (a.view docs) s).filter
        (fun r => decide (r.2 = some a.field))).map (fun _ => s.path.kept) :=
    List.map_congr_left (fun r hr => (hspec r (List.mem_filter.1 hr).1).2)
  rw [standIns, List.filter_map, List.map_map]
  simp only [Function.comp_def]
  rw [hfilter, hmap, filter_lacking]
  split <;> rfl

/-- In the slot of the field, completed paths show what is shown of the paths in order. -/
theorem filter_laid (hdocs : AreContent docs) (seen : List Nat) {ps : List (Path Tag)}
    (hps : ∀ o ∈ ps, o ∈ a.view docs) :
    ((laid a.kind a.key (a.view docs) seen ps).filter
      (fun q => decide (slot? a.kind q = some a.field))).map Path.kept =
      a.shown (a.view docs) seen ps := by
  induction ps generalizing seen with
  | nil => rfl
  | cons o ps ih =>
    have ho := hps o (by simp)
    rw [laid, Address.shown, List.filter_append, List.filter_append, List.map_append,
      List.map_append, ih _ (fun x hx => hps x (by simp [hx]))]
    refine congrArg (· ++ _) ?_
    rw [shownOf]
    -- a path in the field shows its branches there, so nothing stands in for them
    by_cases hslot : slot? a.kind o = some a.field
    · have hkept : isKept a.kind (a.view docs) o = true := isKept_of_slot? hslot
      have hnone : (((firsts Site.branch seen (sites o)).flatMap
          (standIns a.kind a.key (a.view docs))).filter
            (fun q => decide (slot? a.kind q = some a.field))).map Path.kept = [] := by
        rw [List.filter_flatMap, List.map_flatMap, List.flatMap_eq_nil_iff]
        intro s hs
        have hs := (mem_of_mem_firsts hs).1
        rw [filter_standIns hdocs ho hs]
        have hin : (s.branch, some a.field) ∈ present a.kind (a.view docs) :=
          mem_present_field.2 ⟨o, ho, hslot, s, hs, rfl⟩
        simp [lacks, hin]
      rw [hnone]
      simp [hkept, hslot]
    · have hout : (if isKept a.kind (a.view docs) o = true then [o] else []).filter
          (fun q => decide (slot? a.kind q = some a.field)) = [] := by
        refine List.filter_eq_nil_iff.2 (fun q hq => ?_)
        split at hq
        · rw [List.mem_singleton.1 hq]
          simpa using hslot
        · simp at hq
      rw [hout, if_neg hslot, List.filter_flatMap, List.map_flatMap]
      exact flatMap_eq_map_filter fun s hs => filter_standIns hdocs ho (mem_of_mem_firsts hs).1

end Address

end WorldMarkup
