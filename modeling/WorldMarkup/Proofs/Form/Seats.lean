import WorldMarkup.Proofs.Form.Conformance
import WorldMarkup.Proofs.Form.Identifiers
import WorldMarkup.Proofs.Form.Steady

/-!
Where the parts of an entity stand in its tree: fields with what they hold, and beside them items
and references below no more than conditionals. Main statement: a component grows to one entity, and
all that stands below it does so, in place and no deeper than the documents.
-/

set_option autoImplicit false
set_option relaxedAutoImplicit false

namespace WorldMarkup

open Standardize
open Ownership (slot? ownedPath? untilNested)
open SplitChain

/-! ### Where the parts of an entity stand -/

/-- Where a node of an entity stands. -/
inductive Seat
  /-- Directly in the entity. -/
  | whole
  /-- In a branch of a conditional of the entity. -/
  | choices
  /-- In an item. -/
  | item
  /-- In a field. -/
  | field

/-- Whether the tag is no part of a field: it chooses, or it is an item, or an entity that is
known. -/
def Tag.IsBeside (known : Entity → Prop) (t : Tag) : Prop :=
  t.isChain = true ∨ t.category = .listItem ∨ ∃ e, t = .entity e ∧ known e

namespace Seat

def Admits (known : Entity → Prop) : Seat → Tag → Prop
  | .whole, t => t.field?.isSome = true ∨ t.IsBeside known
  | .choices, t => t.IsBeside known
  | .item, _ => False
  | .field, _ => True

def below (seat : Seat) (t : Tag) : Seat :=
  match seat with
  | .field => .field
  | .item => .item
  | .whole | .choices =>
    if t.field?.isSome then .field else if t.isChain then .choices else .item

theorem below_eq_of_kin {seat : Seat} {a b : Tag} (kin : a.Kin b) : seat.below a = seat.below b := by
  rcases kin with rfl | same
  · rfl
  · cases seat <;> cases a <;> cases b <;>
      simp_all [Tag.same, below, Tag.field?, Tag.isChain]

end Seat

/-- The parts of an entity: fields with what they hold, and items below no more than
conditionals. -/
def Tag.standsSeated (known : Entity → Prop) : Standing Seat where
  allows := Seat.Admits known
  below := Seat.below

theorem Tag.respects_standsSeated (known : Entity → Prop) : (Tag.standsSeated known).Respects :=
  Standing.respects_of_eq Seat.below_eq_of_kin

namespace Path

variable {known : Entity → Prop} {c r : Path Tag}

theorem field?_of_isChain {t : Tag} (h : t.isChain = true) : t.field? = none := by
  cases t <;> simp_all [Tag.isChain, Tag.field?]

theorem stands_field (p : Path Tag) : Path.Stands (Tag.standsSeated known) .field p := by
  induction p with
  | nil => trivial
  | cons s p ih => exact ⟨trivial, ih⟩

theorem Stands.whole (h : Path.Stands (Tag.standsSeated known) .choices r) :
    Path.Stands (Tag.standsSeated known) .whole r := by
  cases r with
  | nil => trivial
  | cons s r => exact ⟨.inr h.1, h.2⟩

theorem Stands.chosen (chain : ∀ s ∈ c, s.data.isChain = true)
    (h : Path.Stands (Tag.standsSeated known) .choices r) :
    Path.Stands (Tag.standsSeated known) .choices (c ++ r) := by
  induction c with
  | nil => exact h
  | cons s c ih =>
    obtain ⟨own, chain⟩ := List.forall_mem_cons.1 chain
    refine ⟨.inl own, ?_⟩
    have below : (Tag.standsSeated known).below .choices s.data = .choices := by
      simp [Tag.standsSeated, Seat.below, field?_of_isChain own, own]
    rw [below]
    exact ih chain

theorem ended_of_scopeAfter {scope : Scope} {context : Tag}
    (chain : ∀ s ∈ c, s.data.isChain = true) (closed : scopeAfter scope c = .content context)
    {s : Step Tag} (last : c.getLast? = some s) : s.data.isWrapper = false := by
  obtain ⟨front, rfl⟩ := List.getLast?_eq_some_iff.1 last
  have own := chain s (by simp)
  rw [scopeAfter_append] at closed
  cases data : s.data <;> simp_all [Tag.isChain, Tag.isWrapper, scopeAfter, Path.scopeBelow,
    Tag.standsLawfully, Scope.below]

end Path

theorem Tag.isBeside_of_admits {known : Entity → Prop} {scope : Scope} {kind : EntityKind} {t : Tag}
    (opened : scope.context = kind.frame) (ordinary : kind ≠ .plain .character)
    (admitted : scope.Admits t) (lifted : t ≠ .inherited) (free : t.isEditing = false)
    (field : t.field? = none) (entity : ∀ e, t = .entity e → known e) : t.IsBeside known := by
  rcases scope with context | context | context
  · obtain rfl : context = kind.frame := opened
    have allowed : kind.frame.allows t = true := by
      rcases admitted with allowed | ⟨⟨target, link⟩, -⟩
      · exact allowed
      · simp [EntityKind.frame] at link
    cases t <;> simp_all [EntityKind.frame, Tag.allows, Tag.inEntity, Tag.IsBeside, Tag.isChain,
      Tag.category, Tag.field?, Tag.isEditing]
  · exact .inl (by cases t <;> simp_all [Scope.Admits, Tag.category, Tag.isChain])
  · cases t <;> simp_all [Scope.Admits, Tag.category, Tag.isEditing]

namespace Address

variable {a : Address} {known : Entity → Prop} {p : Path Tag}

/-- What stands below the entity in a path's final order. -/
structure IsRoot (known : Entity → Prop) (q : Path Tag) : Prop where
  seated : Path.Stands (Tag.standsSeated known) .whole q
  ended : ∀ s, q.getLast? = some s → s.data.isWrapper = false

theorem isChain_of_transparent {t : Tag} (h : t.isTransparent = true) (lifted : t ≠ .inherited)
    (free : t.isEditing = false) : t.isChain = true := by
  cases t <;> simp_all [Tag.isTransparent, Tag.isChain, Tag.isEditing]

theorem stands_beside {k : EntityKind} {r : Path Tag} (ordinary : k ≠ .plain .character)
    (below : r.IsLawful (.content k.frame)) (free : ∀ s ∈ r, s.data.isEditing = false)
    (plain : ∀ s ∈ r, s.data.field? = none) (ends : ∀ s ∈ r.dropLast, s.data.entity? = none)
    (own : ∀ s ∈ r, ∀ e, s.data = .entity e → known e) :
    Path.Stands (Tag.standsSeated known) .choices r := by
  rcases List.eq_nil_or_concat' r with rfl | ⟨m, y, rfl⟩
  · trivial
  have within : ∀ s ∈ m, s ∈ (m ++ [y]).dropLast := by simp
  have passing := below.passing (k := k) rfl ordinary
    (fun s hs => ⟨plain s (by simp [hs]), ends s (within s hs)⟩) (by simp)
  obtain ⟨upper, lower⟩ := Path.isLawful_append.1 below
  obtain ⟨⟨admitted, -, lifted⟩, -⟩ := Path.isLawful_cons.1 lower
  refine Path.Stands.chosen (fun s hs => ?_) ⟨?_, trivial⟩
  · exact isChain_of_transparent (passing s hs) (upper.lifted s hs) (free s (by simp [hs]))
  · exact Tag.isBeside_of_admits (Path.context_scopeAfter passing) ordinary admitted lifted
      (free y (by simp)) (plain y (by simp)) (own y (by simp))

theorem chooses_field {k : EntityKind} {m d : Path Tag} {x : Step Tag} {g : FieldKind}
    (ordinary : k ≠ .plain .character) (below : Path.IsLawful (.content k.frame) (m ++ x :: d))
    (free : ∀ s ∈ m, s.data.isEditing = false) (field : x.data = .field g)
    (plain : ∀ s ∈ m, s.data.field? = none ∧ s.data.entity? = none) :
    (∀ s ∈ m, s.data.isChain = true) ∧
      (∀ s, m.getLast? = some s → s.data.isWrapper = false) ∧
      ∀ s ∈ d, s.data.field? = none := by
  have passing := below.passing (k := k) rfl ordinary plain (by simp)
  have after := below.scopeAfter_eq (by simp [field, Tag.category]) (by simp [field, Tag.category])
  obtain ⟨upper, lower⟩ := Path.isLawful_append.1 below
  obtain ⟨-, inner⟩ := Path.isLawful_cons.1 lower
  have opened : Scope.below (Path.scopeAfter (.content k.frame) m) x.data =
      .content (.field .name) := by
    rw [field]
    rfl
  rw [opened] at inner
  have chain : ∀ s ∈ m, s.data.isChain = true := fun s hs =>
    isChain_of_transparent (passing s hs) (upper.lifted s hs) (free s hs)
  exact ⟨chain, fun s last => Path.ended_of_scopeAfter chain after last,
    fun s hs => (inner.inline (.inl rfl) s hs).1⟩

theorem ended_append {l m : Path Tag} (hl : ∀ s, l.getLast? = some s → s.data.isWrapper = false)
    (hm : ∀ s, m.getLast? = some s → s.data.isWrapper = false) :
    ∀ s, (l ++ m).getLast? = some s → s.data.isWrapper = false := by
  intro s last
  rcases List.eq_nil_or_concat' m with rfl | ⟨m, y, rfl⟩
  · exact hl s (by simpa using last)
  · refine hm s ?_
    rwa [← List.append_assoc, List.getLast?_concat, ← List.getLast?_concat (l := m)] at last

theorem isRoot_field {x : Step Tag} {q : Path Tag} {g : FieldKind} (field : x.data = .field g)
    (ended : ∀ s, q.getLast? = some s → s.data.isWrapper = false) : IsRoot known (x :: q) where
  seated := by
    have seat : (Tag.standsSeated known).below .whole x.data = .field := by
      simp [Tag.standsSeated, Seat.below, field, Tag.field?]
    refine ⟨.inl (by simp [field, Tag.field?]), ?_⟩
    rw [seat]
    exact Path.stands_field _
  ended := by
    have single : ∀ s, [x].getLast? = some s → s.data.isWrapper = false := by
      rintro s ⟨⟩
      simp [field, Tag.isWrapper]
    exact ended_append single ended

/-- Below the entity a completed path leads through conditionals into a field or to an item. -/
theorem Lays.isRoot (known : Entity → Prop) (h : a.Lays p) (ordinary : a.kind ≠ .plain .character)
    (free : ∀ s ∈ p, s.data.isEditing = false)
    (own : ∀ s ∈ p, a.isTarget s.data = false → ∀ e, s.data = .entity e → known e)
    (ended : ∀ s, p.getLast? = some s → s.data.isWrapper = false) :
    ∃ t q, Path.reorder (Standardize.reorderings a.kind a.key) p = t :: q ∧
      a.isTarget t.data = true ∧ q.length + 1 = p.length ∧ IsRoot known q ∧
      ∀ s ∈ q, s ∈ p ∧ a.isTarget s.data = false := by
  cases h with
  | @intro c r t above target named takes below others ends =>
    have upper : ∀ s ∈ c, a.isTarget s.data = false := fun s hs =>
      isTarget_eq_false (by
        have := above.chain s hs
        cases hd : s.data <;> simp_all [Tag.isChain, Tag.entity?])
    have closed : ∀ s, c.getLast? = some s → s.data.isWrapper = false := fun s last =>
      Path.ended_of_scopeAfter above.chain above.closed last
    have lower {u v : Path Tag} (split : r = u ++ v) :
        ∀ s, v.getLast? = some s → s.data.isWrapper = false := by
      intro s last
      refine ended s ?_
      rw [split, ← List.cons_append, ← List.append_assoc]
      exact List.getLast?_append.trans (by rw [last]; rfl)
    -- a field comes before the conditionals above the entity; without one only the entity does
    cases hfind : r.find? (fun s => s.data.field?.isSome) with
    | none =>
      have plain : ∀ s ∈ r, s.data.field? = none := by
        intro s hs
        simpa using List.find?_eq_none.1 hfind s hs
      have seated : Path.Stands (Tag.standsSeated known) .choices r :=
        stands_beside ordinary below (fun s hs => free s (by simp [hs])) plain ends
          fun s hs => own s (by simp [hs]) (others s hs)
      refine ⟨t, c ++ r, ?_, target, by simp; omega,
        ⟨(Path.Stands.chosen above.chain seated).whole, ?_⟩, ?_⟩
      · exact reorder_beside above.chain target (fun s hs => ⟨plain s hs, others s hs⟩)
      · exact ended_append closed (lower (u := []) rfl)
      · intro s hs
        rcases List.mem_append.1 hs with hs | hs
        · exact ⟨by simp [hs], upper s hs⟩
        · exact ⟨by simp [hs], others s hs⟩
    | some x =>
      obtain ⟨filled, m, d, rfl, unfilled⟩ := List.find?_eq_some_iff_append.1 hfind
      obtain ⟨g, field⟩ : ∃ g, x.data = .field g := by
        cases hd : x.data <;> simp_all [Tag.field?]
      have plain : ∀ s ∈ m, s.data.field? = none ∧ s.data.entity? = none := by
        intro s hs
        refine ⟨by simpa using unfilled s hs, ends s ?_⟩
        rw [List.dropLast_append_of_ne_nil (by simp)]
        exact List.mem_append_left _ hs
      obtain ⟨chain, closed', inline⟩ := chooses_field ordinary below
        (fun s hs => free s (by simp [hs])) field plain
      have reordered := reorder_through (c := c) (d := d) above.chain target
        (fun s hs => isAnchor_eq_false (plain s hs).1 (others s (by simp [hs])))
        (by rw [field]; rfl)
        (fun s hs => isAnchor_eq_false (inline s hs) (others s (by simp [hs])))
      rw [List.filter_eq_self.2 chain, List.filter_eq_nil_iff.2 fun s hs => by simp [chain s hs],
        List.append_nil] at reordered
      have last :=
        ended_append (ended_append closed closed') (lower (u := m ++ [x]) (v := d) (by simp))
      refine ⟨t, x :: (c ++ m ++ d), reordered, target, by simp; omega, isRoot_field field last,
        fun s hs => ?_⟩
      simp only [List.mem_cons, List.mem_append] at hs
      rcases hs with rfl | (hs | hs) | hs
      · exact ⟨by simp, others _ (by simp)⟩
      · exact ⟨by simp [hs], upper s hs⟩
      · exact ⟨by simp [hs], others s (by simp [hs])⟩
      · exact ⟨by simp [hs], others s (by simp [hs])⟩

theorem entity_untilNested {q : Path Tag} {s : Step Tag} {e : Entity} (hs : s ∈ untilNested q)
    (entity : s.data = .entity e) : e.withoutSource = e ∧ s.extra = {} ∧
      ∃ x ∈ q, ∃ e', x.data = .entity e' ∧ e'.kind = e.kind ∧ e'.key = e.key := by
  induction q with
  | nil => simp [untilNested] at hs
  | cons x q ih =>
    rw [untilNested] at hs
    split at hs
    · rename_i isSome
      obtain rfl := List.mem_singleton.1 hs
      cases data : x.data <;> simp [data, Tag.entity?] at isSome
      rename_i e'
      simp only [data, Tag.withoutSource, Tag.entity.injEq] at entity
      subst entity
      refine ⟨?_, rfl, x, by simp, e', data, by simp, by simp⟩
      exact Entity.withoutSource_eq (by simp)
    · rename_i plain
      rcases List.mem_cons.1 hs with rfl | hs
      · simp [entity, Tag.entity?] at plain
      · obtain ⟨same, bare, y, hy, found⟩ := ih hs
        exact ⟨same, bare, y, by simp [hy], found⟩

variable {docs : List (Path Tag)} {o : Path Tag} {s : Step Tag} {e : Entity}

theorem entity_of_mem_view (ho : o ∈ a.view docs) (hs : s ∈ o) (other : a.isTarget s.data = false)
    (entity : s.data = .entity e) : e.withoutSource = e ∧ s.extra = {} ∧
      ∃ p ∈ docs, ∃ x ∈ p, ∃ e', x.data = .entity e' ∧ e'.kind = e.kind ∧ e'.key = e.key := by
  obtain ⟨p, hp, ho⟩ := mem_view.1 ho
  obtain ⟨above, t, below, rfl, target, -, shape⟩ := ownedPath?_cases ho
  have apart : s ≠ t := by
    rintro rfl
    simp [target] at other
  rcases shape with ⟨-, rfl⟩ | ⟨-, rfl⟩
  · exact absurd (List.mem_singleton.1 hs) apart
  · rw [List.mem_append, List.mem_cons, List.mem_filter] at hs
    rcases hs with ⟨-, chain⟩ | same | hs
    · simp [entity, Tag.isChain] at chain
    · exact absurd same apart
    · obtain ⟨same, bare, x, hx, found⟩ := entity_untilNested hs entity
      exact ⟨same, bare, _, hp, x, by simp [hx], found⟩

theorem last_of_growComponent {grown : Forest Tag} {paths : List (Path Tag)}
    (h : Standardize.growComponent a.kind a.key paths = .ok grown)
    (hp : p ∈ complete a.kind a.key paths)
    (last : p.getLast? = some s) : s.data.isWrapper = false := by
  rw [Standardize.growComponent] at h
  split at h
  · simp at h
  · rename_i o taken
    have faultless := Outline.faultless_of_ofPaths taken p hp
    rw [Path.fault?] at faultless
    split at faultless
    · simp at faultless
    · rw [last] at faultless
      cases wrapper : s.data.isWrapper with
      | false => rfl
      | true => simp [worldRules, wrapper] at faultless

theorem length_untilNested (q : Path Tag) : (untilNested q).length ≤ q.length := by
  induction q with
  | nil => simp [untilNested]
  | cons x q ih =>
    rw [untilNested]
    split
    · simp
    · simpa using ih

theorem length_of_mem_view (ho : o ∈ a.view docs) : ∃ p ∈ docs, o.length ≤ p.length := by
  obtain ⟨p, hp, ho⟩ := mem_view.1 ho
  refine ⟨p, hp, ?_⟩
  obtain ⟨above, t, below, rfl, -, -, shape⟩ := ownedPath?_cases ho
  rcases shape with ⟨-, rfl⟩ | ⟨-, rfl⟩
  · simp
    omega
  · have := length_untilNested below
    have := List.length_filter_le (fun s : Step Tag => s.data.isChain) above
    simp only [List.length_append, List.length_cons]
    omega

/-- A placeholder grows by no more than the steps it lacks, which another path has. -/
theorem length_placeholder_le {start step : Option (Step Tag)} {z : Path Tag}
    (target : p.any (fun s => s.data.isEntityOf a.kind a.key) = false →
      ∃ t ∈ z, a.isTarget t.data = true)
    (field : step.isSome = true → p.any (fun s => s.data.field?.isSome) = false →
      ∃ s ∈ z, s.data.field?.isSome = true) :
    (placeholder a.kind a.key start step p).length ≤ p.length + z.length := by
  have short (o : Option (Step Tag)) : o.toList.length ≤ 1 := by cases o <;> simp
  have := short start
  rw [placeholder]
  by_cases targeted : p.any (fun s => s.data.isEntityOf a.kind a.key) = true
  · rw [if_pos targeted]
    split
    · omega
    · rename_i unfilled
      cases step with
      | none => simp
      | some u =>
        obtain ⟨v, hv, -⟩ := field rfl (by simpa using unfilled)
        have := List.length_pos_of_mem hv
        simp
        omega
  · rw [if_neg targeted]
    obtain ⟨t, ht, target⟩ := target (by simpa using targeted)
    have := List.length_pos_of_mem ht
    split
    · rw [List.length_append]
      omega
    · rename_i unfilled
      cases step with
      | none =>
        simp only [List.length_append, Option.toList_none, List.length_nil]
        omega
      | some u =>
        obtain ⟨v, hv, own⟩ := field rfl (by
          rw [List.any_append, Bool.not_eq_true, Bool.or_eq_false_iff] at unfilled
          exact unfilled.1)
        have apart : t ≠ v := by
          rintro rfl
          simp [field?_of_isTarget target] at own
        have : 2 ≤ z.length := by
          by_contra few
          obtain ⟨y, rfl⟩ := List.length_eq_one_iff.1 (show z.length = 1 by omega)
          exact apart ((List.mem_singleton.1 ht).trans (List.mem_singleton.1 hv).symm)
        simp only [List.length_append, Option.toList_some, List.length_cons, List.length_nil]
        omega

/-- A path that stands for a branch is no longer than one through its conditional in the slot. -/
theorem length_of_mem_standIns (hdocs : AreContent docs) (owned : AreOwned (a.view docs))
    (ended : ∀ o ∈ a.view docs, ∀ s, o.getLast? = some s → s.data.isWrapper = false)
    (ho : o ∈ a.view docs) {site : Site} (hsite : site ∈ sites o)
    (hp : p ∈ standIns a.kind a.key (a.view docs) site) :
    ∃ q ∈ a.view docs, p.length ≤ q.length := by
  obtain ⟨r, hr, rfl⟩ := List.mem_map.1 hp
  obtain ⟨-, reached, -⟩ := mem_lacking.1 hr
  obtain ⟨q, hq, -, slot, w', hw', conditional', same⟩ := mem_reach_iff.1 reached
  obtain ⟨x, w, b, y, rfl, conditional, rfl⟩ := mem_sites.1 hsite
  obtain ⟨x', y', rfl⟩ := List.append_of_mem hw'
  obtain ⟨rfl, rfl⟩ := owned.agree ho hq conditional conditional' same.symm
  refine ⟨_, hq, ?_⟩
  obtain ⟨b', z, rfl⟩ : ∃ b' z, y' = b' :: z := by
    rcases y' with _ | ⟨b', z⟩
    · have := ended _ hq w (List.getLast?_concat ..)
      simp [conditional, Tag.isWrapper] at this
    · exact ⟨b', z, rfl⟩
  have branch := owned.branch hq conditional
  -- what the stand-in is given comes behind the conditional on the other path
  have behind {u : Step Tag} (hu : u ∈ x ++ w :: b' :: z) (above : u ∉ x)
      (apart : u.data ≠ .conditional) (apart' : u.data.category ≠ .branch) : u ∈ z := by
    simp only [List.mem_append, List.mem_cons] at hu
    rcases hu with hu | rfl | rfl | hu
    · exact absurd hu above
    · exact absurd conditional apart
    · exact absurd branch apart'
    · exact hu
  have lengths : (x ++ w :: b' :: z).length = (x ++ [w, b]).length + z.length := by
    simp
    omega
  rw [lengths]
  refine length_placeholder_le (fun none => ?_) fun given unfilled => ?_
  · obtain ⟨t, once⟩ := target_view hdocs hq
    obtain ⟨ht, target⟩ := List.mem_filter.1 (once ▸ List.mem_singleton_self t)
    obtain ⟨e, entity, -⟩ := exists_entity_of_isTarget target
    refine ⟨t, behind ht (fun hx => ?_) (by simp [entity]) (by simp [entity, Tag.category]), target⟩
    exact absurd target (List.any_eq_false.1 none t (by simp [hx]))
  · obtain ⟨step, found⟩ := Option.isSome_iff_exists.1 given
    obtain ⟨f, slotted, -⟩ := Option.bind_eq_some_iff.1 found
    obtain ⟨u, hu, own⟩ := List.exists_of_findSome?_eq_some (slot.trans slotted)
    have own := (Option.filter_eq_some_iff.1 own).1
    refine ⟨u, behind hu (fun hx => ?_) (fun same => ?_) (fun same => ?_), by simp [own]⟩
    · have := List.any_eq_false.1 unfilled u (by simp [hx])
      simp [own] at this
    · simp [same, Tag.field?] at own
    · simp [(Tag.plain_of_branch same).1] at own

theorem length_of_mem_complete (hdocs : AreContent docs) (owned : AreOwned (a.view docs))
    (ended : ∀ o ∈ a.view docs, ∀ s, o.getLast? = some s → s.data.isWrapper = false)
    (hp : p ∈ complete a.kind a.key (a.view docs)) : ∃ q ∈ docs, p.length ≤ q.length := by
  obtain ⟨o, ho, short⟩ : ∃ o ∈ a.view docs, p.length ≤ o.length := by
    rw [complete_eq_laid] at hp
    rcases mem_laid hp with hp | ⟨o, ho, site, hsite, hp⟩
    · exact ⟨p, hp, le_rfl⟩
    · exact length_of_mem_standIns hdocs owned ended ho hsite hp
  obtain ⟨q, hq, short'⟩ := length_of_mem_view ho
  exact ⟨q, hq, short.trans short'⟩

end Address

def Forest.IsUnnamed (t : Forest Tag) : Prop :=
  ∀ x ∈ Forest.preorder t, x.1.entity?.isSome = true → x.2 = {}

theorem Forest.isUnnamed_cons {d : Tag} {e : Extra} {cs rest : Forest Tag} :
    Forest.IsUnnamed (⟨d, e, cs⟩ :: rest) ↔
      (d.entity?.isSome = true → e = {}) ∧ Forest.IsUnnamed cs ∧ Forest.IsUnnamed rest := by
  simp only [Forest.IsUnnamed, Forest.preorder_cons, List.forall_mem_cons, List.forall_mem_append]

theorem Forest.isUnnamed_append {t u : Forest Tag} :
    Forest.IsUnnamed (t ++ u) ↔ Forest.IsUnnamed t ∧ Forest.IsUnnamed u := by
  simp only [Forest.IsUnnamed, Forest.preorder_append, List.forall_mem_append]

theorem Tag.Kin.isEditing_eq {a b : Tag} (h : a.Kin b) : a.isEditing = b.isEditing := by
  rcases h with rfl | same
  · rfl
  · cases a <;> cases b <;> simp_all [Tag.same, Tag.isEditing]

theorem Tag.Kin.isSome_entity?_eq {a b : Tag} (h : a.Kin b) :
    a.entity?.isSome = b.entity?.isSome := by
  have := h.category_eq
  cases a <;> cases b <;> simp_all [Tag.category, Tag.entity?]

namespace Growth

variable {label : Nat → Tag} {order : List Category}

/-- Laying in a path whose entities carry nothing keeps a growing forest so. -/
theorem isUnnamed_insert {p : Path Tag} {g : Growth Tag}
    (labelled : ∀ s ∈ p, s.data.Kin (label s.origin))
    (hg : Forest.Grows label freely () g)
    (steps : ∀ s ∈ p, s.data.entity?.isSome = true → s.extra = {})
    (h : Forest.IsUnnamed g.forest) : Forest.IsUnnamed (insert (regrowth order) p g).forest := by
  induction p generalizing g with
  | nil => exact h
  | cons s rest ih =>
    obtain ⟨own, later⟩ := List.forall_mem_cons.1 steps
    obtain ⟨kin, labelled⟩ := List.forall_mem_cons.1 labelled
    rcases meets_or_isNew (regrowth order) s g with ⟨before, n, after, rfl, hmeets⟩ | hnew
    · obtain ⟨hgbefore, hgrest⟩ := grows_append.1 hg
      rw [Growth.forest_append, Forest.isUnnamed_append] at h
      obtain ⟨hbefore, hrest⟩ := h
      rcases n with ⟨⟨d, number⟩, e, cs⟩
      obtain ⟨⟨hd, -, hgbelow⟩, -⟩ := hgrest
      obtain ⟨there, below, hafter⟩ := Forest.isUnnamed_cons.1 hrest
      have joined : d.Kin s.data := kin_of_meets (n := ⟨(d, number), e, cs⟩) hd kin hmeets
      rw [insert_of_meets _ hmeets, Growth.forest_append, Forest.isUnnamed_append]
      refine ⟨hbefore,
        Forest.isUnnamed_cons.2 ⟨fun entity => ?_, ih labelled hgbelow later below, hafter⟩⟩
      have known : d.entity?.isSome = true := by
        rcases settle_data (step ⟨(d, number), e, cs⟩) s with h | h
        · exact (congrArg (fun t : Tag => t.entity?.isSome) h).symm.trans entity
        · rw [joined.isSome_entity?_eq]
          exact (congrArg (fun t : Tag => t.entity?.isSome) h).symm.trans entity
      rw [joined.isSome_entity?_eq] at known
      have bare := own known
      rw [← joined.isSome_entity?_eq] at known
      show Extra.mk _ _ = _
      simp [there known, bare, step]
    · obtain ⟨before, after, rfl, hput, -⟩ := exists_of_isNew hnew
      rw [Growth.forest_append, Forest.isUnnamed_append] at h
      rw [hput, Growth.forest_append, Forest.isUnnamed_append]
      refine ⟨h.1, Forest.isUnnamed_cons.2 ⟨own, ih labelled trivial later ?_, h.2⟩⟩
      simp [Forest.IsUnnamed, Growth.forest, Forest.map, Forest.preorder]

end Growth

namespace Address

variable {a : Address} {docs : List (Path Tag)} {o : Path Tag} {s : Step Tag}

theorem ended_of_mem_view (ended : ∀ p ∈ docs, ∀ s, p.getLast? = some s → s.data.isWrapper = false)
    (ho : o ∈ a.view docs) (last : o.getLast? = some s) : s.data.isWrapper = false := by
  by_contra wrapper
  have plain : s.data.entity? = none := by
    cases hd : s.data <;> simp_all [Tag.entity?, Tag.isWrapper]
  obtain ⟨p, hp, ho⟩ := mem_view.1 ho
  obtain ⟨above, t, below, rfl, target, -, shape⟩ := ownedPath?_cases ho
  obtain ⟨e, entity, -⟩ := exists_entity_of_isTarget target
  have own : t.data.entity? ≠ none := by simp [entity, Tag.entity?]
  rcases shape with ⟨-, rfl⟩ | ⟨some, rfl⟩
  · obtain rfl : t = s := by simpa using last
    exact own plain
  · have inner : (untilNested below).getLast? = .some s := by
      rcases hb : untilNested below with _ | ⟨x, r⟩
      · rw [hb, List.getLast?_concat] at last
        obtain rfl := Option.some.inj last
        exact absurd plain own
      · rw [hb, List.getLast?_append_of_ne_nil _ (by simp),
          List.getLast?_cons_of_ne_nil (by simp)] at last
        exact last
    have := ended _ hp s (by
      rw [List.getLast?_append_of_ne_nil _ (by simp), List.getLast?_cons_of_ne_nil some]
      exact getLast?_untilNested inner plain)
    exact wrapper this

/-- What documents are for their components to be found again. -/
structure AreSteady (known : Entity → Prop) (docs : List (Path Tag)) : Prop where
  content : AreContent docs
  accepted : AreAccepted docs
  lawful : AreLawful docs
  free : ∀ p ∈ docs, ∀ s ∈ p, s.data.isEditing = false
  short : ∀ p ∈ docs, p.length < maxDepth
  ended : ∀ p ∈ docs, ∀ s, p.getLast? = some s → s.data.isWrapper = false
  known : ∀ p ∈ docs, ∀ s ∈ p, ∀ e e', s.data = .entity e → e'.kind = e.kind → e'.key = e.key →
    e'.withoutSource = e' → known e'

/-- Content as it stands below the entity of a grown component. -/
structure IsGrown (known : Entity → Prop) (kind : EntityKind) (t : Forest Tag) : Prop where
  lawful : Forest.Stands Tag.standsLawfully (.content kind.frame) t
  seated : Forest.Stands (Tag.standsSeated known) .whole t
  inPlace : Forest.InPlace (Growth.regrowth childOrder) t
  faultless : Forest.faultAt? Tag.isWrapper 2 t = none
  unnamed : Forest.IsUnnamed t

variable {known : Entity → Prop}

theorem isRoot_of_mem_complete (h : AreSteady known docs) (ordinary : a.kind ≠ .plain .character)
    {p : Path Tag} {grown : Forest Tag}
    (grows : Standardize.growComponent a.kind a.key (a.view docs) = .ok grown)
    (hp : p ∈ complete a.kind a.key (a.view docs)) :
    ∃ t r, Path.reorder (Standardize.reorderings a.kind a.key) p = t :: r ∧ IsRoot known r ∧
      2 + r.length ≤ maxDepth ∧ ∀ s ∈ r, s.data.entity?.isSome = true → s.extra = {} := by
  have owned := areOwned_view (a := a) h.accepted
  have other {s : Step Tag} (hs : s ∈ p) (plain : a.isTarget s.data = false) {e : Entity}
      (entity : s.data = .entity e) : known e ∧ s.extra = {} := by
    obtain ⟨o, ho, hs⟩ := exists_of_mem_complete hp hs
    obtain ⟨same, bare, d, hd, x, hx, e', data, kind, key⟩ :=
      entity_of_mem_view ho hs plain entity
    exact ⟨h.known d hd x hx e' e data kind.symm key.symm same, bare⟩
  have free : ∀ s ∈ p, s.data.isEditing = false := by
    intro s hs
    obtain ⟨o, ho, hs⟩ := exists_of_mem_complete hp hs
    obtain ⟨x, hx, -, kin⟩ := kin_of_mem_view ho hs
    obtain ⟨d, hd, hx⟩ := List.mem_flatten.1 hx
    rw [Tag.Kin.isEditing_eq kin]
    exact h.free d hd x hx
  obtain ⟨t, r, reordered, -, length, root, mem⟩ := (lays_complete h.lawful hp).isRoot known
    ordinary free (fun s hs plain e entity => (other hs plain entity).1)
    (fun s last => last_of_growComponent grows hp last)
  obtain ⟨d, hd, short⟩ := length_of_mem_complete h.content owned
    (fun o ho s last => ended_of_mem_view h.ended ho last) hp
  have := h.short d hd
  refine ⟨t, r, reordered, root, by omega, fun s hs isSome => ?_⟩
  obtain ⟨hs, plain⟩ := mem s hs
  obtain ⟨e, entity⟩ : ∃ e, s.data = .entity e := by
    cases hd : s.data <;> simp_all [Tag.entity?]
  exact (other hs plain entity).2

theorem isGrown_insertAll {kind : EntityKind} {tails : List (Path Tag)} (agree : Path.Agree tails)
    (each : ∀ q ∈ tails, IsRoot known q ∧ 2 + q.length ≤ maxDepth ∧
      ∀ s ∈ q, s.data.entity?.isSome = true → s.extra = {})
    (lawful : Forest.Stands Tag.standsLawfully (.content kind.frame)
      (Growth.insertAll (Growth.regrowth childOrder) tails []).forest) :
    IsGrown known kind (Growth.insertAll (Growth.regrowth childOrder) tails []).forest := by
  have labelled {q : Path Tag} (hq : q ∈ tails) :
      ∀ s ∈ q, s.data.Kin (Path.label tails s.origin) := fun s hs =>
    agree.kin_label (List.mem_flatten.2 ⟨q, hq, hs⟩)
  exact {
    lawful
    seated := Growth.stands_insertAll (Tag.respects_standsSeated known) agree
      fun q hq => (each q hq).1.seated
    inPlace := Forest.inPlace_insertAll (by decide) agree
    faultless := Growth.insertAll_keeps
      (P := fun t => Forest.faultAt? Tag.isWrapper 2 t = none) agree
      (fun q hq g hg => Growth.faultless_insert (labelled hq) hg (each q hq).2.1
        (each q hq).1.ended) rfl
    unnamed := Growth.insertAll_keeps agree
      (fun q hq g hg => Growth.isUnnamed_insert (labelled hq) hg (each q hq).2.2)
      (by simp [Forest.IsUnnamed, Forest.preorder]) }

/-- A component grows to one entity, and below it stands grown content. -/
theorem isGrown_children (h : AreSteady known docs) (seen : a.view docs ≠ []) {grown : Forest Tag}
    {root : Node Tag} (grows : Standardize.growComponent a.kind a.key (a.view docs) = .ok grown)
    (hroot : root ∈ grown) : grown = [root] ∧ a.isTarget root.data = true ∧
      IsGrown known a.kind root.children := by
  obtain ⟨o, ho⟩ := List.exists_mem_of_ne_nil _ seen
  have ordinary := kind_of_view h.lawful ho
  have lawful := Forest.stands_iff.1 (stands_lawfully_grown h.lawful ordinary grows) root hroot
  have filled : complete a.kind a.key (a.view docs) ≠ [] := by
    intro none
    rw [growComponent_eq grows, none] at hroot
    simp [Growth.insertAll, Growth.forest, Forest.map] at hroot
  have routes : ∀ p ∈ complete a.kind a.key (a.view docs), a.Routes p := fun p hp =>
    routes_of_mem_complete h.content hp
  obtain ⟨m, all, target, children, -⟩ := @Growth.insertAll_starts childOrder _ _ _
    (starts_of_routes routes) (by simpa using filled)
  rw [growComponent_eq grows, all, Growth.forest_node] at hroot
  obtain rfl := List.mem_singleton.1 hroot
  obtain ⟨-, lawful⟩ := lawful
  rw [show Tag.standsLawfully.below (.content .exported) m.data.1 = .content a.kind.frame from
    below_target (a := a) target _] at lawful
  refine ⟨by rw [growComponent_eq grows, all, Growth.forest_node], target, ?_⟩
  show IsGrown known a.kind (Growth.forest m.children)
  rw [children] at lawful ⊢
  refine isGrown_insertAll (h.lawful.agree.of_steps fun s hs =>
    kin_of_mem_reordered (a := a) ?_) (fun q hq => ?_) lawful
  · obtain ⟨q, hq, hs⟩ := List.mem_flatten.1 hs
    obtain ⟨p, hp, rfl⟩ := List.mem_map.1 hq
    exact List.mem_flatten.2 ⟨p, hp, List.mem_of_mem_tail hs⟩
  · obtain ⟨_, whole, rfl⟩ := List.mem_map.1 hq
    obtain ⟨p, hp, rfl⟩ := List.mem_map.1 whole
    obtain ⟨t, r, reordered, root⟩ := isRoot_of_mem_complete h ordinary grows hp
    rw [reordered]
    exact root

end Address

end WorldMarkup
