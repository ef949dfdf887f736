import WorldMarkup.Proofs.Form.Finishing
import WorldMarkup.Proofs.Form.Seats

/-!
What stands beside the fields of an entity. It ends below conditionals, holds no text, and stands
where the grammar has it. Main statement: the parts of an entity that are no fields stay in place
when the fields are left out, and behind fields that stand in place.
-/

set_option autoImplicit false
set_option relaxedAutoImplicit false

namespace WorldMarkup

open Standardize
open Growth (regrowth)
open Address (childOrder)

namespace Forest

variable {t : Forest Tag} {known : Entity → Prop}

theorem beside_of_seated (h : Forest.Stands (Tag.standsSeated known) .choices t) :
    ∀ n ∈ trees t, n.data.IsBeside known ∧ (n.data.isChain = false → n.children = []) := by
  induction t using Forest.induction with
  | nil => simp [trees_nil]
  | cons d e cs rest hcs hrest =>
    obtain ⟨⟨own, below⟩, beside⟩ := h
    have own : d.IsBeside known := own
    have plain : d.field? = none := by
      rcases own with chain | item | ⟨e, rfl, -⟩
      · exact Path.field?_of_isChain chain
      · cases d <;> simp_all [Tag.category, Tag.field?]
      · rfl
    have seat : (Tag.standsSeated known).below .choices d =
        if d.isChain then .choices else .item := by
      simp [Tag.standsSeated, Seat.below, plain]
    rw [seat] at below
    rw [trees_cons, List.forall_mem_cons, List.forall_mem_append]
    cases chain : d.isChain with
    | true =>
      rw [chain, if_pos rfl] at below
      exact ⟨⟨own, by simp⟩, hcs below, hrest beside⟩
    | false =>
      rw [chain, if_neg Bool.false_ne_true] at below
      obtain rfl : cs = [] := by
        cases cs with
        | nil => rfl
        | cons n cs =>
          obtain ⟨d', e', cs'⟩ := n
          exact below.1.1.elim
      exact ⟨⟨own, fun _ => rfl⟩, by simp [trees_nil], hrest beside⟩

theorem isBeside_of_seated (h : Forest.Stands (Tag.standsSeated known) .choices t) :
    ∀ x ∈ preorder t, x.1.IsBeside known := by
  intro x hx
  rw [preorder_eq_trees] at hx
  obtain ⟨n, hn, rfl⟩ := List.mem_map.1 hx
  exact (beside_of_seated h n hn).1

theorem nested_of_stands {kind : EntityKind} {scope : Scope}
    (h : Forest.Stands (Tag.standsSeated known) .choices t)
    (lawful : Forest.Stands Tag.standsLawfully scope t) (opened : scope.context = kind.frame) :
    ∀ x ∈ preorder t, ∀ e, x.1 = .entity e → (Tag.entity e).inEntity kind = true := by
  induction t using Forest.induction generalizing scope with
  | nil => simp [preorder]
  | cons d e cs rest hcs hrest =>
    obtain ⟨-, leaf⟩ := beside_of_seated h _ (mem_trees_of_mem List.mem_cons_self)
    obtain ⟨⟨⟨admitted, -⟩, inside⟩, others⟩ := lawful
    obtain ⟨⟨own, below⟩, beside⟩ := h
    rw [preorder_cons, List.forall_mem_cons, List.forall_mem_append]
    refine ⟨?_, ?_, hrest beside others opened⟩
    · rintro e rfl
      cases scope with
      | content context =>
        obtain rfl : context = kind.frame := opened
        rcases admitted with allowed | ⟨-, space⟩
        · simpa [EntityKind.frame, Tag.allows] using allowed
        · simp at space
      | branches context | halves context => simp [Scope.Admits, Tag.category] at admitted
    · cases chain : d.isChain with
      | true =>
        have passing : d.isTransparent = true := by
          cases d <;> simp_all [Tag.isChain, Tag.isTransparent]
        have seat : (Tag.standsSeated known).below .choices d = .choices := by
          simp [Tag.standsSeated, Seat.below, Path.field?_of_isChain chain, chain]
        rw [seat] at below
        exact hcs below inside ((Scope.context_below passing).trans opened)
      | false =>
        obtain rfl : cs = [] := leaf chain
        simp [preorder]

theorem joinText_of_textless (h : ∀ x ∈ preorder t, x.1.isText = false) : joinText t = t := by
  have joined : IsJoined t := by
    induction t using Forest.induction with
    | nil => exact isJoined_nil
    | cons d e cs rest hcs hrest =>
      simp only [preorder_cons, List.forall_mem_cons, List.forall_mem_append] at h
      obtain ⟨own, below, beside⟩ := h
      refine isJoined_cons.2 ⟨?_, ?_, hcs below, hrest beside⟩
      · rintro rfl
        simp [Tag.isText, Tag.text?] at own
      · simp [own]
  refine joined.joinText_eq ?_
  clear joined
  induction t using Forest.induction with
  | nil => trivial
  | cons d e cs rest hcs hrest =>
    simp only [preorder_cons, List.forall_mem_cons, List.forall_mem_append] at h
    obtain ⟨own, below, beside⟩ := h
    exact ⟨⟨by simp [own], hcs below⟩, hrest beside⟩

theorem IsUnnamed.stripInherited (h : IsUnnamed t) : IsUnnamed (Forest.stripInherited t) := by
  induction t using Forest.induction with
  | nil => exact h
  | cons d e cs rest hcs hrest =>
    obtain ⟨own, below, beside⟩ := isUnnamed_cons.1 h
    exact isUnnamed_cons.2 ⟨fun entity => by rw [own entity], hcs below, hrest beside⟩

end Forest

namespace Tag

variable {known : Entity → Prop} {t : Tag}

theorem IsBeside.textless (h : t.IsBeside known) : t.isText = false := by
  rcases h with chain | item | ⟨e, rfl, -⟩
  · cases t <;> simp_all [isChain, isText, text?]
  · cases t <;> simp_all [category, isText, text?]
  · rfl

theorem IsBeside.plain (h : t.IsBeside known) : t.field? = none ∧ isDeclaration t = false := by
  rcases h with chain | item | ⟨e, rfl, -⟩
  · cases t <;> simp_all [isChain, field?, isDeclaration]
  · cases t <;> simp_all [category, field?, isDeclaration]
  · exact ⟨rfl, rfl⟩

theorem IsBeside.free (h : t.IsBeside known) : t ≠ .remove ∧ t ≠ .replace := by
  rcases h with chain | item | ⟨e, rfl, -⟩
  · cases t <;> simp_all [isChain]
  · cases t <;> simp_all [category]
  · simp

theorem IsBeside.knows {e : Entity} (h : (Tag.entity e).IsBeside known) : known e := by
  rcases h with chain | item | ⟨e', same, knows⟩
  · simp [isChain] at chain
  · simp [category] at item
  · rwa [Tag.entity.inj same]

end Tag

/-! ### Fields before items -/

theorem Rules.finds_append {α κ : Type} [DecidableEq κ] {r : Rules α κ} {d : α}
    {later earlier : List α} (h : r.finds d later = false) (h' : r.finds d earlier = false) :
    r.finds d (later ++ earlier) = false := by
  induction later with
  | nil => exact h'
  | cons x later ih =>
    rw [finds] at h
    obtain ⟨own, others⟩ := Bool.or_eq_false_iff.1 h
    rw [List.cons_append, finds, own, Bool.false_or, Bool.and_eq_false_iff]
    exact (Bool.and_eq_false_iff.1 others).imp_right ih

theorem Rules.finds_eq_false_iff {α κ : Type} [DecidableEq κ] {r : Rules α κ} {d : α}
    {passed : List α} (free : ∀ x ∈ passed, r.independent (r.category x) (r.category d) = true) :
    r.finds d passed = false ↔ ∀ x ∈ passed, r.finds d [x] = false := by
  have each : r.finds d (passed ++ []) = false ↔
      (∀ x ∈ passed, r.finds d [x] = false) ∧ r.finds d [] = false := finds_append_eq_false free
  rw [List.append_nil] at each
  exact each.trans (and_iff_left rfl)

theorem Tag.not_ranksBelow {d x : Tag} (free : x.category ∉ childOrder) :
    (regrowth childOrder).ranksBelow d x = false := by
  have none : (regrowth childOrder).rank? ((regrowth childOrder).category x) = none :=
    List.findIdx?_eq_none_iff.2 fun c hc => by
      simp only [decide_eq_false_iff_not]
      rintro rfl
      exact free hc
  rw [Rules.ranksBelow, none]
  split <;> simp_all

theorem Tag.eq_field {t : Tag} {g : FieldKind} (h : t.field? = some g) : t = .field g := by
  cases t <;> simp [field?] at h
  rw [h]

theorem Tag.not_ranksBelow_field (d : Tag) (g : FieldKind) :
    (regrowth childOrder).ranksBelow d (.field g) = false := by
  have first : (regrowth childOrder).rank? ((regrowth childOrder).category (.field g)) = some 0 :=
    rfl
  rw [Rules.ranksBelow, first]
  cases (regrowth childOrder).rank? ((regrowth childOrder).category d) <;> simp

theorem Tag.fieldless_of_not_ranksBelow {g : FieldKind} {x : Tag} (plain : x.field? = none)
    (h : (regrowth childOrder).ranksBelow (.field g) x = false) : x.category ∉ childOrder := by
  intro ranked
  have outranks (above : (regrowth childOrder).ranksBelow (.field g) x = true) : False := by
    simp [h] at above
  cases x with
  | entity | exit | position | pronouns => exact outranks rfl
  | field => simp [field?] at plain
  | _ => simp [category, childOrder] at ranked

namespace Forest

variable {t : Forest Tag}

theorem InPlaceAfter.beyond {r : Rules Tag Category} {backward earlier : List Tag}
    (h : InPlaceAfter r backward t)
    (apart : ∀ n ∈ t, r.finds n.data earlier = false ∧ r.outranked n.data earlier = false) :
    InPlaceAfter r (backward ++ earlier) t := by
  induction t generalizing backward with
  | nil => trivial
  | cons n t ih =>
    obtain ⟨unfound, last, inside, beside⟩ := h
    obtain ⟨⟨unfound', last'⟩, apart⟩ := List.forall_mem_cons.1 apart
    refine ⟨Rules.finds_append unfound unfound', ?_, inside, ih beside apart⟩
    cases backward with
    | nil => exact last'
    | cons x backward => exact last

theorem InPlace.beyond {r : Rules Tag Category} {earlier : List Tag} (h : InPlace r t)
    (apart : ∀ n ∈ t, r.finds n.data earlier = false ∧ r.outranked n.data earlier = false) :
    InPlaceAfter r earlier t :=
  InPlaceAfter.beyond h apart

/-- Fields that are left out leave the other siblings in place: those before a field have no rank
that counts. -/
theorem InPlaceAfter.fieldless {backward kept : List Tag}
    (h : InPlaceAfter (regrowth childOrder) backward t)
    (loose : ∀ n ∈ t, n.data.category ∈ Category.unordered)
    (before : ∀ x ∈ backward, x.category ∈ Category.unordered)
    (sub : ∀ x ∈ kept, x ∈ backward ∧ x.field? = none)
    (last : kept.head? = backward.head? ∨ ∀ x ∈ kept.head?, x.category ∉ childOrder) :
    InPlaceAfter (regrowth childOrder) kept (List.filter (fun n => n.data.field?.isNone) t) := by
  induction t generalizing backward kept with
  | nil => trivial
  | cons n t ih =>
    obtain ⟨unfound, ranks, inside, beside⟩ := h
    obtain ⟨own, loose⟩ := List.forall_mem_cons.1 loose
    have before' : ∀ x ∈ n.data :: backward, x.category ∈ Category.unordered :=
      List.forall_mem_cons.2 ⟨own, before⟩
    cases field : n.data.field? with
    | some g =>
      rw [List.filter_cons_of_neg (by simp [field])]
      refine ih beside loose before' (fun x hx => ⟨List.mem_cons_of_mem _ (sub x hx).1, (sub x hx).2⟩)
        (.inr fun x hx => ?_)
      rcases last with same | free
      · rw [Rules.outranked, ← same, show kept.head? = some x from hx] at ranks
        refine Tag.fieldless_of_not_ranksBelow (g := g) (sub x (List.mem_of_mem_head? hx)).2 ?_
        rw [← Tag.eq_field field]
        exact ranks
      · exact free x hx
    | none =>
      rw [List.filter_cons_of_pos (by simp [field])]
      refine ⟨?_, ?_, inside, ih beside loose before' ?_ (.inl rfl)⟩
      · have pass : ∀ x ∈ backward, (regrowth childOrder).independent
            ((regrowth childOrder).category x) ((regrowth childOrder).category n.data) = true :=
          fun x hx => Tag.independent_of_unordered (before x hx) own
        have each := (Rules.finds_eq_false_iff pass).1 unfound
        exact (Rules.finds_eq_false_iff fun x hx => pass x (sub x hx).1).2
          fun x hx => each x (sub x hx).1
      · rcases last with same | free
        · rwa [Rules.outranked, same]
        · rw [Rules.outranked]
          cases head : kept.head? with
          | none => rfl
          | some x => exact Tag.not_ranksBelow (free x head)
      · refine List.forall_mem_cons.2 ⟨⟨List.mem_cons_self, field⟩, fun x hx => ?_⟩
        exact ⟨List.mem_cons_of_mem _ (sub x hx).1, (sub x hx).2⟩

end Forest

theorem Tag.apart_of_field {g : FieldKind} {t : Tag} (other : t.field? ≠ some g) :
    (Tag.field g).same t = false := by
  cases t <;> simp_all [same, field?, eq_comm]

theorem Component.inPlace_fields {fields : List ComponentField}
    (once : (fields.map ComponentField.kind).Nodup)
    (roots : ∀ f ∈ fields, f.node.data = .field f.kind)
    (inside : ∀ f ∈ fields, f.node.InPlace (regrowth childOrder)) {backward : List Tag}
    (before : ∀ x ∈ backward, ∃ g, x = .field g ∧ g ∉ fields.map ComponentField.kind) :
    Forest.InPlaceAfter (regrowth childOrder) backward (fields.map ComponentField.node) := by
  induction fields generalizing backward with
  | nil => trivial
  | cons f fields ih =>
    obtain ⟨apart, once⟩ := List.nodup_cons.1 once
    obtain ⟨root, roots⟩ := List.forall_mem_cons.1 roots
    obtain ⟨own, inside⟩ := List.forall_mem_cons.1 inside
    refine ⟨Rules.finds_eq_false fun x hx _ _ => ?_, ?_, own, ih once roots inside ?_⟩
    · obtain ⟨g, rfl, other⟩ := before x hx
      refine Tag.apart_of_field ?_
      rw [root]
      rintro same
      exact other (by simp [← Option.some.inj same])
    · rw [Rules.outranked]
      cases backward with
      | nil => rfl
      | cons x backward =>
        obtain ⟨g, rfl, -⟩ := before x (by simp)
        exact Tag.not_ranksBelow_field _ g
    · refine List.forall_mem_cons.2 ⟨⟨f.kind, root, apart⟩, fun x hx => ?_⟩
      obtain ⟨g, same, other⟩ := before x hx
      exact ⟨g, same, fun hg => other (by simp [hg])⟩

end WorldMarkup
