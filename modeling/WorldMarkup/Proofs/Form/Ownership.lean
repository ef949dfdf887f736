import WorldMarkup.Proofs.Form.Excerpt
import WorldMarkup.Form.SplitChain

/-!
What a component sees of a content path. Main statements: a path is seen in the slot of a field
exactly when it leads there, and then nothing of it is lost but the steps above the field that are
no part of a conditional; the branches that are seen on a path are the first of those on it.
-/

set_option autoImplicit false
set_option relaxedAutoImplicit false

namespace WorldMarkup

open Ownership (splitAtLast? untilNested ownedPath? slot?)
open SplitChain (Site sites sitesFrom)

/-- Parts of conditionals, and running content. -/
def Tag.isKept (t : Tag) : Bool := t.isChain || t.category == .inline

namespace Path

def kept (p : Path Tag) : Path Tag := List.filter (fun s => s.data.isKept) p

/-- Entities and conditionals with their branches. -/
inductive IsTrunk : Path Tag → Prop
  | nil : IsTrunk []
  | entity {s : Step Tag} {rest : Path Tag} (hs : s.data.entity?.isSome = true)
      (more : IsTrunk rest) : IsTrunk (s :: rest)
  | choice {w b : Step Tag} {rest : Path Tag} (hw : w.data = .conditional)
      (hb : b.data.category = .branch) (more : IsTrunk rest) : IsTrunk (w :: b :: rest)

/-- A content path below an entity of the kind, or from the top: entities and conditionals, then
perhaps a field with what it holds, or a list item. -/
inductive Runs : Option EntityKind → Path Tag → Prop
  | stop {c : Option EntityKind} : Runs c []
  | entity {c : Option EntityKind} {s : Step Tag} {rest : Path Tag} {e : Entity}
      (hs : s.data = .entity e) (more : Runs (some e.kind) rest) : Runs c (s :: rest)
  | choice {c : Option EntityKind} {w b : Step Tag} {rest : Path Tag}
      (hw : w.data = .conditional) (hb : b.data.category = .branch) (more : Runs c rest) :
      Runs c (w :: b :: rest)
  | field {k : EntityKind} {s : Step Tag} {rest : Path Tag} {g : FieldKind}
      (hs : s.data = .field g) (hg : k.hasField g = true)
      (inner : ∀ x ∈ rest, x.data.isKept = true) : Runs (some k) (s :: rest)
  | item {k : EntityKind} {s : Step Tag} (hs : s.data.category = .listItem) : Runs (some k) [s]

theorem isKept_of_fits {c : Tag} (hc : c.category = .field ∨ c.category = .inline) :
    ∀ p : Path Tag, (Path.Fits (some c) p → ∀ x ∈ p, x.data.isKept = true) ∧
      (Path.StartsInBranch (some c) p → ∀ x ∈ p, x.data.isKept = true)
  | [] => by simp
  | s :: rest => by
    refine ⟨fun h => ?_, fun h => ?_⟩
    · obtain ⟨stands, more⟩ := h
      have hs : s.data.isKept = true ∧
          (s.data = .conditional ∨ s.data.category = .inline) := by
        cases hd : s.data <;> cases c <;>
          simp_all [Tag.standsIn, Tag.isKept, Tag.isChain, Tag.category, Tag.allows,
            Tag.isInlineContent, Tag.isText, Tag.text?]
      intro x hx
      rcases List.mem_cons.1 hx with rfl | hx
      · exact hs.1
      · split at more
        · exact (isKept_of_fits hc rest).2 more x hx
        · rename_i hnot
          rcases hs.2 with h | h
          · exact absurd h hnot
          · exact (isKept_of_fits (.inr h) rest).1 more x hx
    · obtain ⟨branch, more⟩ := h
      intro x hx
      rcases List.mem_cons.1 hx with rfl | hx
      · cases hd : x.data <;> simp_all [Tag.isKept, Tag.isChain, Tag.category]
      · exact (isKept_of_fits hc rest).1 more x hx

def contextKind : Option Tag → Option EntityKind
  | some (.entity e) => some e.kind
  | _ => none

/-- A fitting path outside of imports and exports is a content path. -/
theorem runs_of_fits : ∀ (p : Path Tag) {c : Option Tag},
    (c = none ∨ ∃ e, c = some (.entity e)) → Path.Fits c p →
      (∀ s ∈ p, Standardize.isDeclaration s.data = false) → Runs (contextKind c) p
  | [], _, _, _, _ => .stop
  | s :: rest, c, hc, h, content => by
    obtain ⟨stands, more⟩ := h
    have here := content s (by simp)
    split at more
    · rename_i hs
      rcases rest with _ | ⟨b, rest⟩
      · exact absurd more id
      · exact .choice hs more.1
          (runs_of_fits rest hc more.2 (fun x hx => content x (by simp [hx])))
    · rename_i hs
      by_cases hent : ∃ e, s.data = .entity e
      · obtain ⟨e, he⟩ := hent
        rw [he] at more
        exact .entity he (runs_of_fits rest (.inr ⟨e, rfl⟩) more
          (fun x hx => content x (by simp [hx])))
      · rcases hc with rfl | ⟨e, rfl⟩
        · exfalso
          cases hd : s.data <;> simp_all [Tag.standsIn, Standardize.isDeclaration]
        · by_cases hfield : ∃ g, s.data = .field g
          · obtain ⟨g, hg⟩ := hfield
            refine .field hg ?_ ?_
            · simpa [hg, Tag.standsIn, Tag.allows, Tag.inEntity, Tag.category] using stands
            · refine (isKept_of_fits (.inl ?_) rest).1 more
              rw [hg]
              rfl
          · have hitem : s.data.category = .listItem := by
              cases hd : s.data <;> simp_all [Tag.standsIn, Tag.category, Tag.allows,
                Tag.inEntity, Standardize.isDeclaration]
            rcases rest with _ | ⟨x, rest⟩
            · exact .item hitem
            · exfalso
              have hx := more.1
              cases hd : s.data <;> rw [hd] at hitem hx <;>
                simp_all [Tag.standsIn, Tag.allows, Tag.category]

theorem IsTrunk.runs {p : Path Tag} (h : IsTrunk p) (c : Option EntityKind) : Runs c p := by
  induction h generalizing c with
  | nil => exact .stop
  | @entity s rest hs _ ih =>
    obtain ⟨e, he⟩ : ∃ e, s.data = .entity e := by
      cases hd : s.data <;> simp_all [Tag.entity?]
    exact .entity he (ih _)
  | choice hw hb _ ih => exact .choice hw hb (ih c)

/-- Above an entity stand entities and conditionals. -/
theorem Runs.split {c : Option EntityKind} {above below : Path Tag} {t : Step Tag} {e : Entity}
    (ht : t.data = .entity e) (h : Runs c (above ++ t :: below)) :
    IsTrunk above ∧ Runs (some e.kind) below := by
  generalize hp : above ++ t :: below = p at h
  induction h generalizing above with
  | stop => simp at hp
  | @entity c s rest e' hs more ih =>
    rcases above with _ | ⟨x, above⟩
    · obtain ⟨rfl, rfl⟩ := List.cons.inj hp
      rw [hs] at ht
      obtain rfl : e' = e := by simpa using ht
      exact ⟨.nil, more⟩
    · obtain ⟨rfl, rfl⟩ := List.cons.inj hp
      obtain ⟨hA, hB⟩ := ih rfl
      exact ⟨.entity (by simp [hs, Tag.entity?]) hA, hB⟩
  | @choice c w b rest hw hb more ih =>
    rcases above with _ | ⟨x, _ | ⟨y, above⟩⟩
    · obtain ⟨rfl, rfl⟩ := List.cons.inj hp
      simp [hw] at ht
    · simp only [List.cons_append, List.nil_append, List.cons.injEq] at hp
      obtain ⟨-, rfl, -⟩ := hp
      simp [ht, Tag.category] at hb
    · simp only [List.cons_append, List.cons.injEq] at hp
      obtain ⟨rfl, rfl, rfl⟩ := hp
      obtain ⟨hA, hB⟩ := ih rfl
      exact ⟨.choice hw hb hA, hB⟩
  | @field k s rest g hs hg inner =>
    exfalso
    rcases above with _ | ⟨x, above⟩
    · obtain ⟨rfl, rfl⟩ := List.cons.inj hp
      simp [hs] at ht
    · obtain ⟨rfl, rfl⟩ := List.cons.inj hp
      have := inner t (by simp)
      simp [ht, Tag.isKept, Tag.isChain, Tag.category] at this
  | @item k s hs =>
    exfalso
    rcases above with _ | ⟨x, above⟩
    · obtain ⟨rfl, rfl⟩ := List.cons.inj hp
      simp [ht, Tag.category] at hs
    · simp at hp

theorem IsTrunk.append {p q : Path Tag} (hp : IsTrunk p) (hq : IsTrunk q) : IsTrunk (p ++ q) := by
  induction hp with
  | nil => exact hq
  | entity hs _ ih => exact .entity hs ih
  | choice hw hb _ ih => exact .choice hw hb ih

/-! ### Targets -/

variable {test : Step Tag → Bool}

theorem splitAtLast?_eq_none {p : Path Tag} :
    splitAtLast? test p = none ↔ ∀ s ∈ p, test s = false := by
  induction p with
  | nil => simp [splitAtLast?]
  | cons s p ih =>
    rcases hp : splitAtLast? test p with _ | ⟨x, t, y⟩
    · rw [hp] at ih
      have hall := ih.1 rfl
      by_cases hs : test s = true
      · simp [splitAtLast?, hp, hs]
      · simp only [splitAtLast?, hp, hs]
        simpa [hs] using hall
    · rw [hp] at ih
      simp only [splitAtLast?, hp, List.forall_mem_cons]
      simpa using fun _ => ih

theorem splitAtLast?_append {above below : Path Tag} {t : Step Tag} (ht : test t = true)
    (hb : ∀ s ∈ below, test s = false) :
    splitAtLast? test (above ++ t :: below) = some (above, t, below) := by
  induction above with
  | nil => simp [splitAtLast?, splitAtLast?_eq_none.2 hb, ht]
  | cons s above ih => simp [splitAtLast?, ih]

theorem exists_of_splitAtLast? {p above below : Path Tag} {t : Step Tag}
    (h : splitAtLast? test p = some (above, t, below)) :
    p = above ++ t :: below ∧ test t = true ∧ ∀ s ∈ below, test s = false := by
  induction p generalizing above with
  | nil => simp [splitAtLast?] at h
  | cons s p ih =>
    rcases hp : splitAtLast? test p with _ | ⟨x, t', y⟩
    · by_cases hs : test s = true
      · simp only [splitAtLast?, hp, hs, if_true, Option.some.injEq, Prod.mk.injEq] at h
        obtain ⟨rfl, rfl, rfl⟩ := h
        exact ⟨rfl, hs, splitAtLast?_eq_none.1 hp⟩
      · simp [splitAtLast?, hp, hs] at h
    · simp only [splitAtLast?, hp, Option.some.injEq, Prod.mk.injEq] at h
      obtain ⟨rfl, rfl, rfl⟩ := h
      obtain ⟨rfl, hrest⟩ := ih hp
      exact ⟨rfl, hrest⟩

end Path

namespace Address

variable {a : Address}

theorem exists_entity_of_isTarget {t : Tag} (h : a.isTarget t = true) :
    ∃ e, t = .entity e ∧ e.kind = a.kind ∧ e.key = a.key := by
  cases t <;> simp_all [isTarget, Tag.isEntityOf]

theorem conditional_cases {c r u v : Path Tag} {t w b : Step Tag}
    (target : a.isTarget t.data = true) (hw : w.data = .conditional)
    (split : u ++ w :: b :: v = c ++ t :: r) :
    (∃ z, c = u ++ w :: b :: z) ∨ (c = u ++ [w] ∧ b = t ∧ v = r) ∨
      ∃ z, u = c ++ t :: z ∧ r = z ++ w :: b :: v := by
  have other : w ≠ t := by
    rintro rfl
    simp [hw, isTarget, Tag.isEntityOf] at target
  rcases List.append_eq_append_iff.1 split with ⟨z, rfl, hz⟩ | ⟨z, rfl, hz⟩
  · rcases z with _ | ⟨x, _ | ⟨y, z⟩⟩
    · exact absurd (List.cons.inj hz).1 other
    · simp only [List.cons_append, List.nil_append, List.cons.injEq] at hz
      obtain ⟨rfl, rfl, rfl⟩ := hz
      exact .inr (.inl ⟨rfl, rfl, rfl⟩)
    · simp only [List.cons_append, List.cons.injEq] at hz
      obtain ⟨rfl, rfl, -⟩ := hz
      exact .inl ⟨z, rfl⟩
  · rcases z with _ | ⟨x, z⟩
    · exact absurd (List.cons.inj hz).1.symm other
    · obtain ⟨rfl, rfl⟩ := List.cons.inj hz
      exact .inr (.inr ⟨z, rfl, rfl⟩)

theorem ownedPath?_eq_none {p : Path Tag} :
    ownedPath? a.kind a.key p = none ↔ ∀ s ∈ p, a.isTarget s.data = false := by
  rw [ownedPath?]
  rcases hp : splitAtLast? (fun s : Step Tag => s.data.isEntityOf a.kind a.key) p with
    _ | ⟨x, t, y⟩
  · simpa [isTarget] using Path.splitAtLast?_eq_none.1 hp
  · obtain ⟨rfl, ht, -⟩ := Path.exists_of_splitAtLast? hp
    have hne : ¬ ∀ s ∈ x ++ t :: y, a.isTarget s.data = false := by
      intro h
      have := h t (by simp)
      simp [isTarget, ht] at this
    simp only [hne, iff_false]
    split <;> simp

theorem ownedPath?_bare {above : Path Tag} {t : Step Tag} (ht : a.isTarget t.data = true) :
    ownedPath? a.kind a.key (above ++ [t]) = some [t] := by
  have h : splitAtLast? (fun s : Step Tag => s.data.isEntityOf a.kind a.key) (above ++ [t]) =
      some (above, t, []) := Path.splitAtLast?_append ht (by simp)
  simp [ownedPath?, h]

theorem ownedPath?_append {above below : Path Tag} {t : Step Tag} (ht : a.isTarget t.data = true)
    (hb : ∀ s ∈ below, a.isTarget s.data = false) (hne : below ≠ []) :
    ownedPath? a.kind a.key (above ++ t :: below) =
      some (List.filter (fun s => s.data.isChain) above ++ t :: untilNested below) := by
  have h : splitAtLast? (fun s : Step Tag => s.data.isEntityOf a.kind a.key)
      (above ++ t :: below) = some (above, t, below) := Path.splitAtLast?_append ht hb
  simp [ownedPath?, h, hne]

theorem ownedPath?_cases {p o : Path Tag} (h : ownedPath? a.kind a.key p = some o) :
    ∃ above t below, p = above ++ t :: below ∧ a.isTarget t.data = true ∧
      (∀ s ∈ below, a.isTarget s.data = false) ∧
      (below = [] ∧ o = [t] ∨ below ≠ [] ∧
        o = List.filter (fun s => s.data.isChain) above ++ t :: untilNested below) := by
  rw [ownedPath?] at h
  rcases hp : splitAtLast? (fun s : Step Tag => s.data.isEntityOf a.kind a.key) p with
    _ | ⟨x, t, y⟩
  · simp [hp] at h
  · obtain ⟨rfl, ht, hy⟩ := Path.exists_of_splitAtLast? hp
    refine ⟨x, t, y, rfl, ht, hy, ?_⟩
    rw [hp] at h
    by_cases hnil : y = []
    · simp only [hnil, List.isEmpty_nil, if_true, Option.some.injEq] at h
      exact .inl ⟨hnil, h.symm⟩
    · have hempty : y.isEmpty = false := by simpa using hnil
      simp only [hempty, Bool.false_eq_true, if_false, Option.some.injEq] at h
      exact .inr ⟨hnil, h.symm⟩

/-! ### Places -/

/-- Where a walk comes to below a path. -/
def after? (a : Address) (place : Place) : Path Tag → Option Place
  | [] => some place
  | s :: rest => (a.next? place s.data).bind (fun below => after? a below rest)

theorem after?_append (place : Place) (p q : Path Tag) :
    a.after? place (p ++ q) = (a.after? place p).bind (fun below => a.after? below q) := by
  induction p generalizing place with
  | nil => rfl
  | cons s p ih =>
    rcases hs : a.next? place s.data with _ | below
    · simp [after?, hs]
    · simp [after?, hs, ih]

theorem leadsPath_append {place below : Place} {p : Path Tag} (h : a.after? place p = some below)
    (q : Path Tag) : a.leadsPath place (p ++ q) = a.leadsPath below q := by
  induction p generalizing place with
  | nil =>
    obtain rfl : place = below := by simpa [after?] using h
    rfl
  | cons s p ih =>
    rcases hs : a.next? place s.data with _ | x
    · simp [after?, hs] at h
    · simp only [after?, hs, Option.bind_some] at h
      simp [leadsPath, hs, ih h]

theorem next?_entity {place : Place} (hp : place ≠ .within) {t : Tag}
    (ht : t.entity?.isSome = true) :
    a.next? place t = some (if a.isTarget t then .owned else .outside) := by
  cases t <;> simp [Tag.entity?] at ht
  cases place <;> first | rfl | exact absurd rfl hp

theorem next?_chain (place : Place) {t : Tag} (ht : t.isChain = true) :
    a.next? place t = some place := by
  cases t <;> simp [Tag.isChain] at ht <;> cases place <;> rfl

theorem isKept_of_isChain {t : Tag} (ht : t.isChain = true) : t.isKept = true := by
  simp [Tag.isKept, ht]

theorem isChain_of_branch {t : Tag} (ht : t.category = .branch) : t.isChain = true := by
  cases t <;> simp [Tag.category] at ht <;> rfl

theorem after?_trunk {p : Path Tag} (h : p.IsTrunk) {place : Place} (hp : place ≠ .within) :
    ((∀ s ∈ p, s.data.entity? = none) ∧ a.after? place p = some place) ∨
    ∃ above x below, p = above ++ x :: below ∧ x.data.entity?.isSome = true ∧
      (∀ s ∈ below, s.data.entity? = none) ∧
      a.after? place p = some (if a.isTarget x.data then .owned else .outside) := by
  induction h generalizing place with
  | nil => exact .inl ⟨by simp, rfl⟩
  | @entity s rest hs _ ih =>
    have hnext := next?_entity (a := a) hp hs
    have hnot : (if a.isTarget s.data = true then Place.owned else .outside) ≠ .within := by
      split <;> simp
    have hafter : a.after? place (s :: rest) =
        a.after? (if a.isTarget s.data then .owned else .outside) rest := by
      simp [after?, hnext]
    rcases ih hnot with ⟨hnone, hrest⟩ | ⟨above, x, below, rfl, hx, hb, hrest⟩
    · exact .inr ⟨[], s, rest, rfl, hs, hnone, by rw [hafter, hrest]⟩
    · exact .inr ⟨s :: above, x, below, rfl, hx, hb, by rw [hafter, hrest]⟩
  | @choice w b rest hw hb _ ih =>
    have hafter : a.after? place (w :: b :: rest) = a.after? place rest := by
      simp [after?, next?_chain place (by simp [hw, Tag.isChain] : w.data.isChain = true),
        next?_chain place (isChain_of_branch hb)]
    rcases ih hp with ⟨hnone, hrest⟩ | ⟨above, x, below, rfl, hx, hbelow, hrest⟩
    · refine .inl ⟨?_, by rw [hafter, hrest]⟩
      have hwn : w.data.entity? = none := by rw [hw]; rfl
      have hbn : b.data.entity? = none := by
        cases hd : b.data <;> simp_all [Tag.category, Tag.entity?]
      exact List.forall_mem_cons.2 ⟨hwn, List.forall_mem_cons.2 ⟨hbn, hnone⟩⟩
    · exact .inr ⟨w :: b :: above, x, below, rfl, hx, hbelow, by rw [hafter, hrest]⟩

theorem isTarget_eq_false {t : Tag} (h : t.entity? = none) : a.isTarget t = false := by
  cases t <;> simp_all [Tag.entity?, isTarget, Tag.isEntityOf]

theorem next?_item {place : Place} (hp : place ≠ .within) {t : Tag}
    (ht : t.category = .listItem) : a.next? place t = none := by
  cases t <;> simp [Tag.category] at ht <;> cases place <;> first | rfl | exact absurd rfl hp

theorem leadsPath_outside {c : Option EntityKind} {p : Path Tag} (h : Path.Runs c p)
    (hp : ∀ s ∈ p, a.isTarget s.data = false) : a.leadsPath .outside p = false := by
  induction h with
  | stop => rfl
  | @entity c s rest e hs _ ih =>
    have hnext : a.next? .outside s.data = some .outside := by
      rw [next?_entity (by simp) (by simp [hs, Tag.entity?]), hp s (by simp)]
      rfl
    simpa [leadsPath, hnext] using ih (fun x hx => hp x (by simp [hx]))
  | @choice c w b rest hw hb _ ih =>
    have hw' := next?_chain (a := a) .outside (by simp [hw, Tag.isChain] : w.data.isChain = true)
    have hb' := next?_chain (a := a) .outside (isChain_of_branch hb)
    simpa [leadsPath, hw', hb'] using ih (fun x hx => hp x (by simp [hx]))
  | @field k s rest g hs _ _ =>
    have hnext : a.next? .outside s.data = none := by simp [hs, next?]
    simp [leadsPath, hnext]
  | @item k s hs =>
    have hnext := next?_item (a := a) (by simp : Place.outside ≠ .within) hs
    simp [leadsPath, hnext]

theorem field?_of_isKept {t : Tag} (h : t.isKept = true) : t.field? = none := by
  cases t <;> simp_all [Tag.isKept, Tag.isChain, Tag.category, Tag.field?]

theorem entity?_of_isKept {t : Tag} (h : t.isKept = true) : t.entity? = none := by
  cases t <;> simp_all [Tag.isKept, Tag.isChain, Tag.category, Tag.entity?]

theorem isDeclaration_of_isKept {t : Tag} (h : t.isKept = true) :
    Standardize.isDeclaration t = false := by
  cases t <;> simp_all [Tag.isKept, Tag.isChain, Tag.category, Standardize.isDeclaration]

theorem untilNested_eq_self {p : Path Tag} (h : ∀ s ∈ p, s.data.entity? = none) :
    untilNested p = p := by
  induction p with
  | nil => rfl
  | cons s p ih =>
    have hs : s.data.entity?.isSome = false := by simp [h s (by simp)]
    simp [untilNested, hs, ih (fun x hx => h x (by simp [hx]))]

/-- Below the component a path leads to the field when that is the slot it is seen in; then
nothing of it is cut off. -/
theorem leadsPath_owned {p : Path Tag} (h : Path.Runs (some a.kind) p)
    (hp : ∀ s ∈ p, a.isTarget s.data = false) :
    (a.leadsPath .owned p = true ↔ slot? a.kind (untilNested p) = some a.field) ∧
      (a.leadsPath .owned p = true → untilNested p = p) := by
  generalize hc : some a.kind = c at h
  induction h with
  | stop => simp [leadsPath, untilNested, slot?]
  | @entity c s rest e hs more _ =>
    have hent : s.data.entity?.isSome = true := by simp [hs, Tag.entity?]
    have hnext : a.next? .owned s.data = some .outside := by
      rw [next?_entity (by simp) hent, hp s (by simp)]
      rfl
    have hout := leadsPath_outside more (fun x hx => hp x (by simp [hx]))
    have hslot : slot? a.kind (untilNested (s :: rest)) = none := by
      simp [untilNested, hs, Tag.entity?, slot?, Tag.withoutSource, Tag.field?]
    simp [leadsPath, hnext, hout, hslot]
  | @choice c w b rest hw hb _ ih =>
    have hw' := next?_chain (a := a) .owned (by simp [hw, Tag.isChain] : w.data.isChain = true)
    have hb' := next?_chain (a := a) .owned (isChain_of_branch hb)
    have hbe : b.data.entity? = none := by
      cases hd : b.data <;> simp_all [Tag.category, Tag.entity?]
    have hbf : b.data.field? = none := by
      cases hd : b.data <;> simp_all [Tag.category, Tag.field?]
    have hwe : w.data.entity? = none := by rw [hw]; rfl
    have hwf : w.data.field? = none := by rw [hw]; rfl
    have hcut : untilNested (w :: b :: rest) = w :: b :: untilNested rest := by
      simp [untilNested, hwe, hbe]
    have hslot : slot? a.kind (w :: b :: untilNested rest) = slot? a.kind (untilNested rest) := by
      simp [slot?, hwf, hbf]
    have hlead : a.leadsPath .owned (w :: b :: rest) = a.leadsPath .owned rest := by
      simp [leadsPath, hw', hb']
    obtain ⟨h1, h2⟩ := ih (fun x hx => hp x (by simp [hx])) hc
    rw [hlead, hcut, hslot]
    exact ⟨h1, fun h => by rw [h2 h]⟩
  | @field k s rest g hs hg inner =>
    obtain rfl : a.kind = k := by simpa using hc
    have hcut : untilNested (s :: rest) = s :: rest := by
      refine untilNested_eq_self (fun x hx => ?_)
      rcases List.mem_cons.1 hx with rfl | hx
      · simp [hs, Tag.entity?]
      · exact entity?_of_isKept (inner x hx)
    have hslot : slot? a.kind (s :: rest) = some g := by
      simp [slot?, hs, Tag.field?, hg]
    rw [hcut, hslot]
    refine ⟨?_, fun _ => rfl⟩
    by_cases hga : g = a.field
    · simp [leadsPath, hs, next?, hga, leadsPath_within]
    · simp [leadsPath, hs, next?, hga]
  | @item k s hs =>
    have hf : s.data.field? = none := by
      cases hd : s.data <;> simp_all [Tag.category, Tag.field?]
    have he : s.data.entity? = none := by
      cases hd : s.data <;> simp_all [Tag.category, Tag.entity?]
    have hnext := next?_item (a := a) (by simp : Place.owned ≠ .within) hs
    simp [leadsPath, hnext, untilNested, he, slot?, hf]

theorem leadsPath_target {above below : Path Tag} {t : Step Tag} (hA : above.IsTrunk)
    (ht : a.isTarget t.data = true) :
    a.leadsPath .outside (above ++ t :: below) = a.leadsPath .owned below := by
  have hafter : a.after? .outside (above ++ [t]) = some .owned := by
    obtain ⟨e, he, -, -⟩ := exists_entity_of_isTarget ht
    have hnext {place : Place} (hp : place ≠ .within) : a.next? place t.data = some .owned := by
      rw [next?_entity hp (by simp [he, Tag.entity?]), ht]
      rfl
    rw [after?_append]
    rcases after?_trunk (a := a) hA (by simp : Place.outside ≠ .within) with
      ⟨-, h⟩ | ⟨-, x, -, -, -, -, h⟩
    · simp [h, after?, hnext]
    · have hne : (if a.isTarget x.data = true then Place.owned else .outside) ≠ .within := by
        split <;> simp
      simp [h, after?, hnext hne]
  have happ := leadsPath_append hafter below
  simpa using happ

theorem leadsPath_iff_slot? {p : Path Tag} (h : Path.Runs none p) :
    a.leadsPath .outside p = true ↔
      ∃ o, ownedPath? a.kind a.key p = some o ∧ slot? a.kind o = some a.field := by
  rcases ho : ownedPath? a.kind a.key p with _ | o
  · have hout := leadsPath_outside h (ownedPath?_eq_none.1 ho)
    simp [hout]
  · obtain ⟨above, t, below, rfl, ht, hb, hcase⟩ := ownedPath?_cases ho
    obtain ⟨e, he, hkind, -⟩ := exists_entity_of_isTarget ht
    obtain ⟨hA, hB⟩ := h.split he
    rw [hkind] at hB
    rw [leadsPath_target hA ht, (leadsPath_owned hB hb).1]
    have htf : t.data.field? = none := by rw [he]; rfl
    rcases hcase with ⟨rfl, rfl⟩ | ⟨-, rfl⟩
    · simp [untilNested, slot?, htf]
    · have hslot : slot? a.kind (List.filter (fun s => s.data.isChain) above ++
          t :: untilNested below) = slot? a.kind (untilNested below) := by
        have hnone : (List.filter (fun s : Step Tag => s.data.isChain) above).findSome?
            (fun s => s.data.field?.filter a.kind.hasField) = none := by
          refine List.findSome?_eq_none_iff.2 (fun x hx => ?_)
          have hx := (List.mem_filter.1 hx).2
          have hf : x.data.field? = none := by
            cases hd : x.data <;> simp_all [Tag.isChain, Tag.field?]
          simp [hf]
        simp [slot?, List.findSome?_append, hnone, htf]
      simp [hslot]

theorem kept_trunk {p : Path Tag} (h : p.IsTrunk) :
    p.kept = List.filter (fun s => s.data.isChain) p := by
  have hent {s : Step Tag} (hs : s.data.entity?.isSome = true) :
      s.data.isKept = s.data.isChain := by
    cases hd : s.data <;> simp_all [Tag.entity?, Tag.isKept, Tag.category, Tag.isChain]
  induction h with
  | nil => rfl
  | entity hs _ ih =>
    simp only [Path.kept, List.filter_cons, hent hs] at ih ⊢
    rw [ih]
  | @choice w b rest hw hb _ ih =>
    have hwc : w.data.isChain = true := by rw [hw]; rfl
    have hbc := isChain_of_branch hb
    simp only [Path.kept, List.filter_cons] at ih ⊢
    simp only [hwc, hbc, isKept_of_isChain hwc, isKept_of_isChain hbc, if_true, ih]

theorem kept_append (p q : Path Tag) : Path.kept (p ++ q) = p.kept ++ q.kept := by
  simp [Path.kept]

theorem kept_filter_chain (p : Path Tag) :
    Path.kept (List.filter (fun s => s.data.isChain) p) =
      List.filter (fun s => s.data.isChain) p := by
  rw [Path.kept, List.filter_filter]
  refine List.filter_congr (fun s _ => ?_)
  cases hs : s.data.isChain <;> simp [Tag.isKept, hs]

theorem exists_of_leadsPath {p : Path Tag} (h : Path.Runs none p)
    (hl : a.leadsPath .outside p = true) :
    ∃ above t below, p = above ++ t :: below ∧ a.isTarget t.data = true ∧
      Path.IsTrunk above ∧ Path.Runs (some a.kind) below ∧ a.leadsPath .owned below = true ∧
      ownedPath? a.kind a.key p =
        some (List.filter (fun s => s.data.isChain) above ++ t :: below) := by
  obtain ⟨o, ho, -⟩ := (leadsPath_iff_slot? h).1 hl
  obtain ⟨above, t, below, rfl, ht, hb, hcase⟩ := ownedPath?_cases ho
  obtain ⟨e, he, hkind, -⟩ := exists_entity_of_isTarget ht
  obtain ⟨hA, hB⟩ := h.split he
  rw [hkind] at hB
  rw [leadsPath_target hA ht] at hl
  refine ⟨above, t, below, rfl, ht, hA, hB, hl, ?_⟩
  rcases hcase with ⟨rfl, -⟩ | ⟨-, rfl⟩
  · simp [leadsPath] at hl
  · rw [ho, (leadsPath_owned hB hb).2 hl]

theorem kept_of_leadsPath {p o : Path Tag} (h : Path.Runs none p)
    (hl : a.leadsPath .outside p = true) (ho : ownedPath? a.kind a.key p = some o) :
    o.kept = p.kept := by
  obtain ⟨above, t, below, rfl, ht, hA, -, -, hown⟩ := exists_of_leadsPath h hl
  rw [hown] at ho
  obtain rfl := Option.some.inj ho
  rw [kept_append, kept_append, kept_filter_chain, kept_trunk hA]

end Address

end WorldMarkup
