import WorldMarkup.Proofs.Form.Scopes
import WorldMarkup.Proofs.Form.Tidying

/-!
What a component sees of lawful content. Conditionals and edits leave the scope as it is once
their branches and halves are passed, so that they may change places with the entity and its
fields. Main statement: the tree that grows for a component stands lawfully.
-/

set_option autoImplicit false
set_option relaxedAutoImplicit false

namespace WorldMarkup

open Standardize (isDeclaration)

namespace Path

/-- Every step stands lawfully. -/
abbrev IsLawful (scope : Scope) (p : Path Tag) : Prop := Path.Stands Tag.standsLawfully scope p

/-- The scope at the end of a path. -/
abbrev scopeAfter (scope : Scope) (p : Path Tag) : Scope :=
  Path.scopeBelow Tag.standsLawfully scope p

variable {scope : Scope} {p q : Path Tag}

theorem isLawful_cons {s : Step Tag} :
    IsLawful scope (s :: p) ↔
      Tag.standsLawfully.allows scope s.data ∧ IsLawful (scope.below s.data) p :=
  Iff.rfl

theorem isLawful_append :
    IsLawful scope (p ++ q) ↔ IsLawful scope p ∧ IsLawful (scopeAfter scope p) q :=
  Path.stands_append

theorem scopeAfter_cons (s : Step Tag) (p : Path Tag) :
    scopeAfter scope (s :: p) = scopeAfter (scope.below s.data) p := rfl

theorem scopeAfter_append (p q : Path Tag) :
    scopeAfter scope (p ++ q) = scopeAfter (scopeAfter scope p) q :=
  Path.scopeBelow_append p q

theorem IsLawful.lifted (h : IsLawful scope p) : ∀ s ∈ p, s.data ≠ .inherited := by
  induction p generalizing scope with
  | nil => simp
  | cons s rest ih => exact List.forall_mem_cons.2 ⟨h.1.2.2, ih h.2⟩

end Path

/-! ### Taking conditionals or edits out of a path -/

namespace Tag

def isEditing : Tag → Bool
  | .remove | .replace | .replaceMatch | .replacePayload => true
  | _ => false

/-- A test for conditionals with their branches, for edits with their halves, or for both, where
the context may hold what passes. -/
structure Sifts (context : Tag) (keep : Tag → Bool) : Prop where
  branches : ∀ t : Tag, t.category = .branch → keep t = keep .conditional
  halves : ∀ t : Tag, t.category = .editBranch → keep t = keep .replace
  passing : ∀ t : Tag, keep t = true → t.isTransparent = true
  allowed : ∀ t : Tag, keep t = true →
    t.category = .branch ∨ t.category = .editBranch ∨ context.allows t = true

theorem sifts_isChain {context : Tag} (h : context.allows .conditional = true) :
    Sifts context isChain where
  branches t ht := by cases t <;> simp_all [category, isChain]
  halves t ht := by cases t <;> simp_all [category, isChain]
  passing t ht := by cases t <;> simp_all [isChain, isTransparent]
  allowed t ht := by cases t <;> simp_all [isChain, category]

theorem sifts_isEditing {context : Tag} (removes : context.allows .remove = true)
    (replaces : context.allows .replace = true) : Sifts context isEditing where
  branches t ht := by cases t <;> simp_all [category, isEditing]
  halves t ht := by cases t <;> simp_all [category, isEditing]
  passing t ht := by cases t <;> simp_all [isEditing, isTransparent]
  allowed t ht := by cases t <;> simp_all [isEditing, category]

theorem isDeclaration_frame (t : Tag) : isDeclaration t.frame = isDeclaration t := by
  cases t <;> rfl

theorem frame_of_allows_entity {e : Entity} {t : Tag} (h : (Tag.entity e).allows t = true)
    (ordinary : e.kind ≠ .plain .character) (field : t.field? = none) (entity : t.entity? = none) :
    t.isTransparent = true ∨ t.frame = .space := by
  have h : t.inEntity e.kind = true := h
  cases t <;> simp_all [inEntity, isTransparent, frame, Tag.field?, Tag.entity?]

theorem inline_of_allows {context t : Tag} (h : context.allows t = true)
    (opened : context.category = .field ∨ context.category = .inline) :
    t.category = .inline ∨ t.category = .conditional ∨ t.category = .edit := by
  cases context <;> simp [category] at opened <;>
    cases t <;> simp_all [allows, isInlineContent, isText, text?, category]

end Tag

namespace Scope

/-- The scope that is left of one where only some steps are kept, below another context. -/
def sifted (context : Tag) (keep : Tag → Bool) : Scope → Scope
  | .content _ => .content context
  | .branches _ => if keep .conditional then .branches context else .content context
  | .halves _ => if keep .replace then .halves context else .content context

variable {context : Tag} {keep : Tag → Bool} {scope : Scope} {t : Tag}

theorem context_below (passing : t.isTransparent = true) :
    (scope.below t).context = scope.context := by
  cases t <;> simp_all [below, Scope.context, Tag.isTransparent]

theorem below_eq_of_opaque (decides : t.isTransparent = false) :
    scope.below t = .content t.frame := by
  cases t <;> simp_all [below, Tag.isTransparent]

theorem admits_sifted (h : Tag.Sifts context keep) (admitted : scope.Admits t)
    (kept : keep t = true) :
    (scope.sifted context keep).Admits t ∧
      (scope.sifted context keep).below t = (scope.below t).sifted context keep := by
  have passing := h.passing t kept
  have opened : (scope.sifted context keep).context = context := by
    unfold sifted
    split <;> (try split) <;> rfl
  constructor
  · cases scope with
    | content c =>
      have plain : t.category ≠ .branch ∧ t.category ≠ .editBranch := by
        rcases admitted with allowed | ⟨-, rfl⟩
        · exact Tag.category_of_allows allowed
        · simp [Tag.category]
      rcases h.allowed t kept with branch | half | allowed
      · exact absurd branch plain.1
      · exact absurd half plain.2
      · exact .inl allowed
    | branches c =>
      have branch : t.category = .branch := admitted
      rw [sifted, ← h.branches t branch, if_pos kept]
      exact branch
    | halves c =>
      have half : t.category = .editBranch := admitted
      rw [sifted, ← h.halves t half, if_pos kept]
      exact half
  · unfold below
    rw [opened]
    cases t <;> simp_all [sifted, Tag.isTransparent]

theorem sifted_below (h : Tag.Sifts context keep) (admitted : scope.Admits t)
    (dropped : keep t = false) :
    (scope.below t).sifted context keep = scope.sifted context keep := by
  have content : (scope.below t).sifted context keep = .content context := by
    unfold below
    split <;> simp_all [sifted]
  rw [content]
  cases scope with
  | content c => rfl
  | branches c => simp [sifted, ← h.branches t admitted, dropped]
  | halves c => simp [sifted, ← h.halves t admitted, dropped]

end Scope

namespace Path

variable {context : Tag} {keep : Tag → Bool} {scope : Scope} {p : Path Tag}

theorem IsLawful.sift (h : Tag.Sifts context keep) (lawful : p.IsLawful scope) :
    IsLawful (scope.sifted context keep) (List.filter (fun s => keep s.data) p) ∧
      scopeAfter (scope.sifted context keep) (List.filter (fun s => keep s.data) p) =
        (scopeAfter scope p).sifted context keep := by
  induction p generalizing scope with
  | nil => exact ⟨trivial, rfl⟩
  | cons s rest ih =>
    obtain ⟨⟨admitted, named, lifted⟩, below⟩ := isLawful_cons.1 lawful
    obtain ⟨inside, after⟩ := ih below
    cases kept : keep s.data with
    | true =>
      obtain ⟨own, opened⟩ := Scope.admits_sifted h admitted kept
      have taken : List.filter (fun s : Step Tag => keep s.data) (s :: rest) =
          s :: List.filter (fun s => keep s.data) rest := by simp [kept]
      rw [taken, isLawful_cons, scopeAfter_cons, opened]
      exact ⟨⟨⟨own, named, lifted⟩, inside⟩, after⟩
    | false =>
      rw [Scope.sifted_below h admitted kept] at inside after
      have left : List.filter (fun s : Step Tag => keep s.data) (s :: rest) =
          List.filter (fun s => keep s.data) rest := by simp [kept]
      rw [left]
      exact ⟨inside, after⟩

theorem context_scopeAfter (passing : ∀ s ∈ p, s.data.isTransparent = true) :
    (scopeAfter scope p).context = scope.context := by
  induction p generalizing scope with
  | nil => rfl
  | cons s rest ih =>
    obtain ⟨own, later⟩ := List.forall_mem_cons.1 passing
    exact (ih later).trans (Scope.context_below own)

theorem IsLawful.scopeAfter_eq {q : Path Tag} {s : Step Tag} (h : IsLawful scope (p ++ s :: q))
    (branch : s.data.category ≠ .branch) (half : s.data.category ≠ .editBranch) :
    scopeAfter scope p = .content (scopeAfter scope p).context :=
  Scope.exists_content (isLawful_append.1 h).2.1.1 branch half

theorem IsLawful.kind_of_entity {q : Path Tag} {s : Step Tag} (h : IsLawful scope (p ++ s :: q))
    (undeclared : isDeclaration scope.context = false)
    (content : ∀ x ∈ p, isDeclaration x.data = false) {e : Entity} (hs : s.data = .entity e) :
    e.kind ≠ .plain .character := by
  induction p generalizing scope with
  | nil =>
    obtain ⟨admitted, -, -⟩ := h.1
    rw [hs] at admitted
    rcases scope with context | context | context
    · rcases admitted with allowed | ⟨-, space⟩
      · rintro character
        cases context <;> simp_all [Tag.allows, Tag.inEntity, Tag.isInlineContent, Tag.isText,
          Tag.text?, isDeclaration, Scope.context]
      · simp at space
    · simp [Scope.Admits, Tag.category] at admitted
    · simp [Scope.Admits, Tag.category] at admitted
  | cons x rest ih =>
    obtain ⟨own, later⟩ := List.forall_mem_cons.1 content
    refine ih h.2 ?_ later
    show isDeclaration (scope.below x.data).context = false
    cases passing : x.data.isTransparent with
    | true => rw [Scope.context_below passing, undeclared]
    | false =>
      rw [Scope.below_eq_of_opaque passing, Scope.context, Tag.isDeclaration_frame, own]

/-- Below an entity, above the first field and the first entity within, nothing decides what may
stand there, unless the path ends there. -/
theorem IsLawful.passing {q : Path Tag} {k : EntityKind} (h : IsLawful scope (p ++ q))
    (opened : scope.context = k.frame) (ordinary : k ≠ .plain .character)
    (plain : ∀ s ∈ p, s.data.field? = none ∧ s.data.entity? = none) (more : q ≠ []) :
    ∀ s ∈ p, s.data.isTransparent = true := by
  induction p generalizing scope with
  | nil => simp
  | cons s rest ih =>
    obtain ⟨⟨admitted, -, -⟩, below⟩ := h
    obtain ⟨⟨field, entity⟩, later⟩ := List.forall_mem_cons.1 plain
    cases passing : s.data.isTransparent with
    | true =>
      refine List.forall_mem_cons.2 ⟨passing, ih below ?_ later⟩
      exact (Scope.context_below passing).trans opened
    | false =>
      -- an item stands here, and nothing may stand below it
      exfalso
      have branch : s.data.category ≠ .branch ∧ s.data.category ≠ .editBranch := by
        cases hd : s.data <;> simp_all [Tag.isTransparent, Tag.category]
      have content := Scope.exists_content admitted branch.1 branch.2
      rw [content, opened] at admitted
      have item : s.data.frame = .space := by
        rcases admitted with allowed | ⟨⟨target, link⟩, -⟩
        · have decided := Tag.frame_of_allows_entity allowed (by simpa using ordinary) field entity
          simpa [passing] using decided
        · cases link
      obtain ⟨x, tail, hx⟩ : ∃ x tail, rest ++ q = x :: tail :=
        List.exists_cons_of_ne_nil (by simp [more])
      have below : IsLawful (scope.below s.data) (rest ++ q) := below
      rw [Scope.below_eq_of_opaque passing, item, hx] at below
      rcases below.1.1 with allowed | ⟨⟨target, link⟩, -⟩
      · simp [Tag.allows] at allowed
      · simp at link

theorem IsLawful.inline (h : IsLawful scope p)
    (opened : scope.context.category = .field ∨ scope.context.category = .inline) :
    ∀ s ∈ p, s.data.field? = none ∧ s.data.entity? = none := by
  induction p generalizing scope with
  | nil => simp
  | cons s rest ih =>
    obtain ⟨⟨admitted, -, -⟩, below⟩ := h
    have kind : s.data.category ∈
        [Category.inline, .conditional, .edit, .branch, .editBranch] := by
      rcases scope with context | context | context
      · rcases admitted with allowed | ⟨-, space⟩
        · rcases Tag.inline_of_allows allowed opened with h | h | h <;> simp [h]
        · simp [space, Tag.category]
      · simp [show s.data.category = .branch from admitted]
      · simp [show s.data.category = .editBranch from admitted]
    have plain : s.data.field? = none ∧ s.data.entity? = none := by
      cases hd : s.data <;> simp_all [Tag.category, Tag.field?, Tag.entity?]
    refine List.forall_mem_cons.2 ⟨plain, ih below ?_⟩
    show (scope.below s.data).context.category = _ ∨ (scope.below s.data).context.category = _
    cases passing : s.data.isTransparent with
    | true => rwa [Scope.context_below passing]
    | false =>
      rw [Scope.below_eq_of_opaque passing]
      cases hd : s.data <;> simp_all [Tag.category, Scope.context, Tag.frame, Tag.isTransparent]

theorem IsLawful.branch {u v : Path Tag} {w b : Step Tag}
    (h : IsLawful scope (u ++ w :: b :: v)) (hw : w.data = .conditional) :
    b.data.category = .branch ∧
      scopeAfter scope (u ++ [w, b]) = .content (scopeAfter scope u).context := by
  obtain ⟨-, -, ⟨admitted, -⟩, -⟩ := isLawful_append.1 h
  have branches : (scopeAfter scope u).below w.data = .branches (scopeAfter scope u).context := by
    rw [hw]
    rfl
  have admitted : ((scopeAfter scope u).below w.data).Admits b.data := admitted
  rw [branches] at admitted
  have branch : b.data.category = .branch := admitted
  refine ⟨branch, ?_⟩
  rw [scopeAfter_append, scopeAfter_cons, branches, scopeAfter_cons]
  show Scope.below _ b.data = _
  cases hb : b.data <;> simp_all [Tag.category, Scope.below, Tag.isTransparent, Scope.context]

end Path

/-! ### What a component sees -/

namespace Address

open Ownership (untilNested ownedPath?)
open SplitChain

variable {a : Address} {docs : List (Path Tag)} {scope : Scope}

theorem below_target {t : Tag} (ht : a.isTarget t = true) (scope : Scope) :
    scope.below t = .content a.kind.frame := by
  obtain ⟨e, rfl, kind, -⟩ := exists_entity_of_isTarget ht
  rw [Scope.below_eq_of_opaque rfl, ← kind]
  rfl

theorem allows_withoutSource {t : Tag} (h : Tag.standsLawfully.allows scope t) :
    Tag.standsLawfully.allows scope t.withoutSource := by
  cases t with
  | entity e =>
    obtain ⟨admitted, named, -⟩ := h
    refine ⟨?_, ?_, by simp [Tag.withoutSource]⟩
    · rcases scope with context | context | context
      · rcases admitted with allowed | ⟨-, space⟩
        · left
          cases context <;> simp_all [Tag.allows, Tag.inEntity, Tag.withoutSource,
            Tag.isInlineContent, Tag.isText, Tag.text?, Tag.entity?]
        · simp at space
      · simp [Scope.Admits, Tag.category] at admitted
      · simp [Scope.Admits, Tag.category] at admitted
    · simpa [Tag.missing?, Tag.withoutSource] using named
  | _ => exact h

theorem isLawful_untilNested {q : Path Tag} (h : q.IsLawful scope) :
    (untilNested q).IsLawful scope := by
  induction q generalizing scope with
  | nil => trivial
  | cons s q ih =>
    rw [untilNested]
    split
    · exact ⟨allows_withoutSource h.1, trivial⟩
    · exact ⟨h.1, ih h.2⟩

theorem entity?_untilNested (q : Path Tag) :
    ∀ s ∈ (untilNested q).dropLast, s.data.entity? = none := by
  induction q with
  | nil => simp [untilNested]
  | cons x q ih =>
    rw [untilNested]
    split
    · simp
    · rename_i plain
      cases hq : untilNested q with
      | nil => simp
      | cons y rest =>
        rw [List.dropLast_cons_cons, ← hq]
        exact List.forall_mem_cons.2 ⟨by simpa using plain, ih⟩

/-- Conditionals, each with a branch. -/
structure Chooses (c : Path Tag) : Prop where
  chain : ∀ s ∈ c, s.data.isChain = true
  lawful : c.IsLawful (.content (.field .name))
  closed : c.scopeAfter (.content (.field .name)) = .content (.field .name)

theorem chooses_nil : Chooses [] := ⟨by simp, trivial, rfl⟩

theorem Chooses.passing {c : Path Tag} (h : Chooses c) :
    ∀ s ∈ c, s.data.isTransparent = true := by
  intro s hs
  have := h.chain s hs
  cases hd : s.data <;> simp_all [Tag.isChain, Tag.isTransparent]

theorem chooses_filter {p q : Path Tag} {s : Step Tag} (h : Path.IsLawful scope (p ++ s :: q))
    (opened : scope = .content scope.context) (branch : s.data.category ≠ .branch)
    (half : s.data.category ≠ .editBranch) :
    Chooses (List.filter (fun s => s.data.isChain) p) := by
  have sifts : Tag.Sifts (.field .name) Tag.isChain := Tag.sifts_isChain rfl
  have above := Path.IsLawful.sift sifts (Path.isLawful_append.1 h).1
  rw [h.scopeAfter_eq branch half, opened] at above
  exact ⟨fun s hs => (List.mem_filter.1 hs).2, above.1, above.2⟩

theorem Chooses.left {u v : Path Tag} {w b : Step Tag} (h : Chooses (u ++ w :: b :: v))
    (hw : w.data = .conditional) : Chooses (u ++ [w, b]) := by
  have split : u ++ w :: b :: v = (u ++ [w, b]) ++ v := by simp
  refine ⟨?_, ?_, ?_⟩
  · intro s hs
    exact h.chain s (by rw [split]; exact List.mem_append_left _ hs)
  · have lawful := h.lawful
    rw [split] at lawful
    exact (Path.isLawful_append.1 lawful).1
  · rw [(h.lawful.branch hw).2, Path.context_scopeAfter (fun s hs => h.passing s (by simp [hs]))]
    rfl

theorem Chooses.stands {c : Path Tag} (h : Chooses c) {context : Tag}
    (takes : c ≠ [] → context.allows .conditional = true) :
    c.IsLawful (.content context) ∧ c.scopeAfter (.content context) = .content context := by
  by_cases empty : c = []
  · subst empty
    exact ⟨trivial, rfl⟩
  · have sifted := Path.IsLawful.sift (Tag.sifts_isChain (takes empty)) h.lawful
    rw [h.closed, List.filter_eq_self.2 h.chain] at sifted
    exact sifted

/-- Conditionals, the entity, and below it what may stand there. -/
inductive Lays (a : Address) : Path Tag → Prop
  | intro {c r : Path Tag} {t : Step Tag} (above : Chooses c) (target : a.isTarget t.data = true)
    (named : t.data.missing? = none) (takes : c ≠ [] → a.kind.frame.allows .conditional = true)
    (below : r.IsLawful (.content a.kind.frame)) (others : ∀ s ∈ r, a.isTarget s.data = false)
    (ends : ∀ s ∈ r.dropLast, s.data.entity? = none) : Lays a (c ++ t :: r)

theorem allows_conditional {k : EntityKind} {t : Tag}
    (h : k.frame.allows t = true) : k.frame.allows .conditional = true := by
  have h : t.inEntity k = true := by simpa [EntityKind.frame, Tag.allows] using h
  show Tag.inEntity (Entity.ofKind k "").kind .conditional = true
  rw [Entity.kind_ofKind]
  rcases k with _ | _ | _ | kind
  · cases t <;> simp_all [Tag.inEntity, EntityKind.hasField, EntityKind.fields, EntityKind.lists]
  · cases t <;> simp_all [Tag.inEntity, EntityKind.hasField, EntityKind.fields, EntityKind.lists]
  · cases t <;> simp_all [Tag.inEntity, EntityKind.hasField, EntityKind.fields, EntityKind.lists]
  · cases kind <;> rfl

theorem lays_ownedPath? {p o : Path Tag} (h : p.IsLawful scope)
    (opened : scope = .content scope.context) (ho : ownedPath? a.kind a.key p = some o) :
    a.Lays o := by
  obtain ⟨above, t, below, rfl, target, others, seen⟩ := ownedPath?_cases ho
  obtain ⟨e, entity, -, -⟩ := exists_entity_of_isTarget target
  obtain ⟨-, own⟩ := Path.isLawful_append.1 h
  obtain ⟨⟨-, named, -⟩, inside⟩ := Path.isLawful_cons.1 own
  rw [below_target target] at inside
  rcases seen with ⟨-, rfl⟩ | ⟨more, rfl⟩
  · exact .intro chooses_nil target named (by simp) trivial (by simp) (by simp)
  · refine .intro ?_ target named ?_ (isLawful_untilNested inside) (isTarget_untilNested others)
      (entity?_untilNested below)
    · exact chooses_filter h opened (by simp [entity, Tag.category])
        (by simp [entity, Tag.category])
    · intro _
      obtain ⟨x, rest, rfl⟩ := List.exists_cons_of_ne_nil more
      rcases inside.1.1 with allowed | ⟨⟨link, none⟩, -⟩
      · exact allows_conditional allowed
      · simp [EntityKind.frame] at none

/-- Content paths that agree and stand lawfully in an asset, outside of declarations. -/
structure AreLawful (docs : List (Path Tag)) : Prop extends
    Path.AreStanding Tag.standsLawfully (.content (.asset "")) docs where
  content : ∀ p ∈ docs, p.IsContent

theorem lays_view (hdocs : AreLawful docs) {o : Path Tag} (ho : o ∈ a.view docs) : a.Lays o := by
  obtain ⟨p, hp, hown⟩ := mem_view.1 ho
  exact lays_ownedPath? (hdocs.stands p hp) rfl hown

theorem kind_of_view (hdocs : AreLawful docs) {o : Path Tag} (ho : o ∈ a.view docs) :
    a.kind ≠ .plain .character := by
  obtain ⟨p, hp, hown⟩ := mem_view.1 ho
  obtain ⟨above, t, below, rfl, target, -, -⟩ := ownedPath?_cases hown
  obtain ⟨e, entity, kind, -⟩ := exists_entity_of_isTarget target
  rw [← kind]
  exact Path.IsLawful.kind_of_entity (hdocs.stands _ hp) rfl
    (fun x hx => hdocs.content _ hp x (by simp [hx])) entity

theorem Lays.named_of_mem {o : Path Tag} (h : a.Lays o) {s : Step Tag} (hs : s ∈ o)
    (target : a.isTarget s.data = true) : s.data.missing? = none := by
  cases h with
  | @intro c r t above _ named _ _ others _ =>
    rcases List.mem_append.1 hs with hs | hs
    · have chain := above.chain s hs
      cases hd : s.data <;> simp_all [Tag.isChain, isTarget, Tag.isEntityOf]
    · rcases List.mem_cons.1 hs with rfl | hs
      · exact named
      · simp [others s hs] at target

theorem exists_targetStep (hdocs : AreLawful docs) {o : Path Tag} (ho : o ∈ a.view docs) :
    ∃ t, targetStep a.kind a.key (a.view docs) = some t ∧ a.isTarget t.data = true ∧
      t.data.missing? = none := by
  rcases hfind : targetStep a.kind a.key (a.view docs) with _ | t
  · exfalso
    cases lays_view hdocs ho with
    | @intro c r t above target _ _ _ _ _ =>
      have absent := List.find?_eq_none.1 hfind t (List.mem_flatten.2 ⟨_, ho, by simp⟩)
      exact absent target
  · have target := targetStep_isTarget hfind
    obtain ⟨q, hq, ht⟩ := List.mem_flatten.1 (List.mem_of_find?_eq_some hfind)
    exact ⟨t, rfl, target, (lays_view hdocs hq).named_of_mem ht target⟩

theorem Lays.cut {u v : Path Tag} {w b : Step Tag} (h : a.Lays (u ++ w :: b :: v))
    (hw : w.data = .conditional) :
    (Chooses (u ++ [w, b]) ∧ a.kind.frame.allows .conditional = true) ∨
      ∃ c t m, u = c ++ t :: m ∧ Chooses c ∧ a.isTarget t.data = true ∧ t.data.missing? = none ∧
        (c ≠ [] → a.kind.frame.allows .conditional = true) ∧
        Path.IsLawful (.content a.kind.frame) (m ++ w :: b :: v) ∧
        (∀ s ∈ m ++ w :: b :: v, a.isTarget s.data = false) ∧ ∀ s ∈ m, s.data.entity? = none := by
  generalize hp : u ++ w :: b :: v = p at h
  cases h with
  | @intro c r t above target named takes below others ends =>
    rcases conditional_cases target hw hp with ⟨z, rfl⟩ | ⟨rfl, -⟩ | ⟨z, rfl, rfl⟩
    · exact .inl ⟨above.left hw, takes (by simp)⟩
    · -- the conditional right above the entity would have no branch
      have closed := above.closed
      rw [Path.scopeAfter_append, Path.scopeAfter_cons, hw] at closed
      cases closed
    · refine .inr ⟨c, t, z, rfl, above, target, named, takes, below, others, ?_⟩
      intro s hs
      apply ends s
      rw [List.dropLast_append_of_ne_nil (by simp)]
      exact List.mem_append_left _ hs

theorem isLawful_branch {m v : Path Tag} {w b : Step Tag}
    (below : Path.IsLawful (.content a.kind.frame) (m ++ w :: b :: v)) (hw : w.data = .conditional)
    (ordinary : a.kind ≠ .plain .character) (ends : ∀ s ∈ m, s.data.entity? = none) :
    Path.IsLawful (.content a.kind.frame) (m ++ [w, b]) ∧
      (∀ s ∈ m ++ [w, b], s.data.entity? = none) ∧
      ((∀ s ∈ m, s.data.field? = none) →
        Path.scopeAfter (.content a.kind.frame) (m ++ [w, b]) = .content a.kind.frame) := by
  have split : m ++ w :: b :: v = (m ++ [w, b]) ++ v := by simp
  obtain ⟨branch, after⟩ := below.branch hw
  refine ⟨?_, ?_, ?_⟩
  · rw [split] at below
    exact (Path.isLawful_append.1 below).1
  · have plain : b.data.entity? = none :=
      entity?_of_isKept (isKept_of_isChain (isChain_of_branch branch))
    intro s hs
    rcases List.mem_append.1 hs with hs | hs
    · exact ends s hs
    · simp only [List.mem_cons, List.not_mem_nil, or_false] at hs
      rcases hs with rfl | rfl
      · rw [hw]
        rfl
      · exact plain
  · intro unfilled
    have passing := below.passing rfl ordinary (fun s hs => ⟨unfilled s hs, ends s hs⟩) (by simp)
    rw [after, Path.context_scopeAfter passing]
    rfl

theorem lays_field {c m : Path Tag} {t : Step Tag} {step : Option (Step Tag)} (above : Chooses c)
    (target : a.isTarget t.data = true) (named : t.data.missing? = none)
    (takes : c ≠ [] → a.kind.frame.allows .conditional = true)
    (below : Path.IsLawful (.content a.kind.frame) m)
    (after : Path.scopeAfter (.content a.kind.frame) m = .content a.kind.frame)
    (others : ∀ s ∈ m, a.isTarget s.data = false) (plain : ∀ s ∈ m, s.data.entity? = none)
    (field : step.toList = [] ∨ ∃ x g, step.toList = [x] ∧ x.data = .field g ∧
      a.kind.hasField g = true) : a.Lays (c ++ t :: (m ++ step.toList)) := by
  have lawful : Path.IsLawful (.content a.kind.frame) step.toList ∧
      ∀ x ∈ step.toList, a.isTarget x.data = false ∧ x.data.entity? = none := by
    rcases field with none | ⟨x, g, hx, hxg, declared⟩
    · rw [none]
      exact ⟨trivial, by simp⟩
    · rw [hx]
      have allowed : a.kind.frame.allows (.field g) = true := by
        simpa [EntityKind.frame, Tag.allows, Tag.inEntity] using declared
      have own : Tag.standsLawfully.allows (.content a.kind.frame) x.data := by
        rw [hxg]
        exact ⟨.inl allowed, rfl, by simp⟩
      exact ⟨⟨own, trivial⟩, by simp [hxg, isTarget, Tag.isEntityOf, Tag.entity?]⟩
  refine .intro above target named takes ?_ ?_ ?_
  · rw [Path.isLawful_append, after]
    exact ⟨below, lawful.1⟩
  · exact List.forall_mem_append.2 ⟨others, fun x hx => (lawful.2 x hx).1⟩
  · intro x hx
    rcases List.mem_append.1 ((List.dropLast_sublist _).subset hx) with hx | hx
    · exact plain x hx
    · exact (lawful.2 x hx).2

theorem lays_placeholder_above {p : Path Tag} {t : Step Tag} {step : Option (Step Tag)}
    (chooses : Chooses p) (takes : a.kind.frame.allows .conditional = true)
    (target : a.isTarget t.data = true) (named : t.data.missing? = none)
    (field : step.toList = [] ∨ ∃ x g, step.toList = [x] ∧ x.data = .field g ∧
      a.kind.hasField g = true) : a.Lays (placeholder a.kind a.key (some t) step p) := by
  obtain ⟨e, entity, -, -⟩ := exists_entity_of_isTarget target
  have plain : ∀ x ∈ p, x.data.isEntityOf a.kind a.key = false ∧ x.data.field? = none := by
    intro x hx
    have chain := chooses.chain x hx
    cases hd : x.data <;> simp_all [Tag.isChain, Tag.isEntityOf, Tag.field?]
  have untargeted : p.any (fun x => x.data.isEntityOf a.kind a.key) = false :=
    List.any_eq_false.2 fun x hx => by simp [(plain x hx).1]
  have unfilled : List.any (p ++ [t]) (fun x => x.data.field?.isSome) = false := by
    rw [List.any_eq_false]
    intro x hx
    rcases List.mem_append.1 hx with hx | hx
    · simp [(plain x hx).2]
    · simp [List.mem_singleton.1 hx, entity, Tag.field?]
  have laid : a.Lays (p ++ t :: ([] ++ step.toList)) :=
    lays_field chooses target named (fun _ => takes) trivial rfl (by simp) (by simp) field
  simpa [placeholder, untargeted, unfilled] using laid

theorem lays_placeholder_below {c m : Path Tag} {t : Step Tag} {found step : Option (Step Tag)}
    (above : Chooses c) (target : a.isTarget t.data = true) (named : t.data.missing? = none)
    (takes : c ≠ [] → a.kind.frame.allows .conditional = true)
    (lawful : Path.IsLawful (.content a.kind.frame) m)
    (others : ∀ s ∈ m, a.isTarget s.data = false) (plain : ∀ s ∈ m, s.data.entity? = none)
    (after : (∀ s ∈ m, s.data.field? = none) →
      Path.scopeAfter (.content a.kind.frame) m = .content a.kind.frame)
    (field : step.toList = [] ∨ ∃ x g, step.toList = [x] ∧ x.data = .field g ∧
      a.kind.hasField g = true) :
    a.Lays (placeholder a.kind a.key found step (c ++ t :: m)) := by
  have targeted : (c ++ t :: m).any (fun x => x.data.isEntityOf a.kind a.key) = true := by
    rw [List.any_eq_true]
    exact ⟨t, by simp, target⟩
  cases filled : (c ++ t :: m).any (fun x => x.data.field?.isSome) with
  | true =>
    have laid : a.Lays (c ++ t :: m) :=
      .intro above target named takes lawful others
        (fun x hx => plain x ((List.dropLast_sublist _).subset hx))
    simpa only [placeholder, targeted, filled, if_true] using laid
  | false =>
    have unfilled : ∀ x ∈ m, x.data.field? = none := by
      intro x hx
      simpa using List.any_eq_false.1 filled x (by simp [hx])
    have laid := lays_field above target named takes lawful (after unfilled) others plain field
    rw [← List.cons_append, ← List.append_assoc] at laid
    simpa only [placeholder, targeted, filled, if_true, if_false, Bool.false_eq_true] using laid

theorem lays_placeholder (hdocs : AreLawful docs) {o : Path Tag} (ho : o ∈ a.view docs) {s : Site}
    (hs : s ∈ sites o) {r : Nat × Slot} (hr : r ∈ lacking a.kind (a.view docs) s) :
    a.Lays (placeholder a.kind a.key (targetStep a.kind a.key (a.view docs))
      (r.2.bind (fieldStep a.kind (a.view docs))) s.path) := by
  obtain ⟨u, w, b, v, rfl, hw, -, -, hpath⟩ := exists_of_mem_sitesFrom hs
  rw [List.nil_append] at hpath
  have field := fieldStep_of_lacking hr
  rcases (lays_view hdocs ho).cut hw with ⟨chooses, takes⟩ | ⟨c, t, m, rfl, above, target, named,
    takes, below, others, ends⟩
  · obtain ⟨t, found, target, named⟩ := exists_targetStep hdocs ho
    rw [hpath, found]
    exact lays_placeholder_above chooses takes target named field
  · obtain ⟨lawful, plain, after⟩ := isLawful_branch below hw (kind_of_view hdocs ho) ends
    have others : ∀ x ∈ m ++ [w, b], a.isTarget x.data = false :=
      fun x hx => others x (by
        simp only [List.mem_append, List.mem_cons, List.not_mem_nil, or_false] at hx ⊢
        tauto)
    have hpath : s.path = c ++ t :: (m ++ [w, b]) := by
      rw [hpath]
      simp
    rw [hpath]
    refine lays_placeholder_below above target named takes lawful others plain ?_ field
    exact fun unfilled => after fun x hx => unfilled x (List.mem_append_left _ hx)

theorem lays_complete (hdocs : AreLawful docs) {p : Path Tag}
    (h : p ∈ complete a.kind a.key (a.view docs)) : a.Lays p := by
  rw [complete_eq_laid] at h
  rcases mem_laid h with h | ⟨o, ho, s, hs, h⟩
  · exact lays_view hdocs h
  · obtain ⟨r, hr, rfl⟩ := List.mem_map.1 h
    exact lays_placeholder hdocs ho hs hr

/-! ### The final order -/

theorem isAnchor_eq_false {t : Tag} (field : t.field? = none) (other : a.isTarget t = false) :
    Path.isAnchor a.kind a.key t = false := by
  have other : t.isEntityOf a.kind a.key = false := other
  cases t <;> simp_all [Path.isAnchor, Tag.category, Tag.field?]

theorem isLawful_into_field {c m d : Path Tag} {context : Tag} (above : Chooses c)
    (lawful : Path.IsLawful (.content context) m)
    (after : Path.scopeAfter (.content context) m = .content context)
    (passing : ∀ s ∈ m, s.data.isTransparent = true)
    (inner : Path.IsLawful (.content (.field .name)) d) :
    Path.IsLawful (.content (.field .name))
      (c ++ List.filter (fun s => s.data.isChain) m ++
        List.filter (fun s => !s.data.isChain) m ++ d) := by
  have others : List.filter (fun s => !s.data.isChain) m =
      List.filter (fun s : Step Tag => s.data.isEditing) m := by
    apply List.filter_congr
    intro s hs
    have passes := passing s hs
    have lifted := lawful.lifted s hs
    cases hd : s.data <;> simp_all [Tag.isTransparent, Tag.isChain, Tag.isEditing]
  have sifted {keep : Tag → Bool} (sifts : Tag.Sifts (.field .name) keep) :
      Path.IsLawful (.content (.field .name)) (List.filter (fun s => keep s.data) m) ∧
        Path.scopeAfter (.content (.field .name)) (List.filter (fun s => keep s.data) m) =
          .content (.field .name) := by
    have kept := lawful.sift sifts
    rw [after] at kept
    exact kept
  obtain ⟨chains, afterChains⟩ := sifted (Tag.sifts_isChain rfl)
  obtain ⟨edits, afterEdits⟩ := sifted (Tag.sifts_isEditing rfl rfl)
  simp only [others, Path.isLawful_append, Path.scopeAfter_append, above.closed, afterChains,
    afterEdits]
  exact ⟨⟨⟨above.lawful, chains⟩, edits⟩, inner⟩

/-- In their final order, too, the steps of a path stand lawfully. -/
theorem Lays.reorder {p : Path Tag} (h : a.Lays p) (ordinary : a.kind ≠ .plain .character) :
    Path.IsLawful (.content .exported)
      (Path.reorder (Standardize.reorderings a.kind a.key) p) := by
  cases h with
  | @intro c r t above target named takes below others ends =>
    have own : Tag.standsLawfully.allows (.content .exported) t.data := by
      obtain ⟨e, entity, -, -⟩ := exists_entity_of_isTarget target
      exact ⟨.inl (by simp [entity, Tag.allows, Tag.entity?]), named, by simp [entity]⟩
    cases hfind : r.find? (fun s => s.data.field?.isSome) with
    | none =>
      have plain : ∀ s ∈ r, s.data.field? = none := by
        intro s hs
        simpa using List.find?_eq_none.1 hfind s hs
      obtain ⟨chosen, after⟩ := above.stands takes
      rw [reorder_beside above.chain target (fun s hs => ⟨plain s hs, others s hs⟩),
        Path.isLawful_cons, below_target target, Path.isLawful_append, after]
      exact ⟨own, chosen, below⟩
    | some x =>
      obtain ⟨filled, m, d, rfl, unfilled⟩ := List.find?_eq_some_iff_append.1 hfind
      obtain ⟨g, field⟩ : ∃ g, x.data = .field g := by
        cases hd : x.data <;> simp_all [Tag.field?]
      have opened (scope : Scope) : scope.below x.data = .content (.field .name) := by
        rw [field]
        rfl
      -- above the field nothing stands but conditionals and edits, and below it inline content
      have plain : ∀ s ∈ m, s.data.field? = none ∧ s.data.entity? = none := by
        intro s hs
        refine ⟨by simpa using unfilled s hs, ends s ?_⟩
        rw [List.dropLast_append_of_ne_nil (by simp)]
        exact List.mem_append_left _ hs
      have passing := below.passing rfl ordinary plain (by simp)
      have after : Path.scopeAfter (.content a.kind.frame) m = .content a.kind.frame := by
        rw [below.scopeAfter_eq (by simp [field, Tag.category]) (by simp [field, Tag.category]),
          Path.context_scopeAfter passing]
        rfl
      obtain ⟨upper, lower⟩ := Path.isLawful_append.1 below
      obtain ⟨stands, inner⟩ := Path.isLawful_cons.1 lower
      rw [after] at stands
      rw [opened] at inner
      have inline := inner.inline (.inl rfl)
      rw [reorder_through above.chain target
        (fun s hs => isAnchor_eq_false (plain s hs).1 (others s (by simp [hs])))
        (by rw [field]; rfl)
        (fun s hs => isAnchor_eq_false (inline s hs).1 (others s (by simp [hs]))),
        Path.isLawful_cons, below_target target, Path.isLawful_cons, opened]
      exact ⟨own, stands, isLawful_into_field above upper after passing inner⟩

theorem stands_lawfully_grown (hdocs : AreLawful docs) (ordinary : a.kind ≠ .plain .character)
    {grown : Forest Tag}
    (h : Standardize.growComponent a.kind a.key (a.view docs) = .ok grown) :
    Forest.Stands Tag.standsLawfully (.content .exported) grown := by
  rw [growComponent_eq h]
  apply Growth.stands_insertAll Tag.editable_standsLawfully.toRespects
    (hdocs.agree.of_steps fun s hs => kin_of_mem_reordered hs)
  intro q hq
  obtain ⟨p, hp, rfl⟩ := List.mem_map.1 hq
  exact (lays_complete hdocs hp).reorder ordinary

end Address

end WorldMarkup
