import WorldMarkup.Proofs.Form.Lawful

/-!
Where running text may stand. Fields and links hold running text and no parts of an entity, entities
hold their parts and no text, and conditionals and edits pass on what stands above them. Main
statements: accepted content stands on such grounds, edits can be resolved on them, and so stands
the tree that grows for a component.
-/

set_option autoImplicit false
set_option relaxedAutoImplicit false

namespace WorldMarkup

/-! ### Grounds -/

/-- What a node opens for what stands below it, as far as running text goes. -/
inductive Ground
  /-- Fields, items and entities. -/
  | parts
  /-- Running text. -/
  | running
  /-- Nothing. -/
  | closed

/-- What a tag opens that decides for itself. -/
def Tag.opensGround : Tag → Ground
  | .asset _ | .entity _ | .imported _ | .exported => .parts
  | .field _ | .link _ => .running
  | _ => .closed

namespace Ground

def Admits : Ground → Tag → Prop
  | .parts, t => t.category ≠ .inline ∧ t.category ≠ .container
  | .running, t =>
    t.category ∈ [Category.inline, .conditional, .branch, .edit, .editBranch, .inherited]
  | .closed, _ => False

def below (ground : Ground) (t : Tag) : Ground :=
  if t.isTransparent then ground else t.opensGround

variable {ground other : Ground} {a b t : Tag}

theorem below_of_transparent (passing : t.isTransparent = true) : ground.below t = ground := by
  rw [below, if_pos passing]

theorem below_eq_of_decides (decides : t.isTransparent = false) :
    ground.below t = other.below t := by
  simp [below, decides]

theorem below_eq_of_kin (kin : a.Kin b) : ground.below a = ground.below b := by
  rcases kin with rfl | same
  · rfl
  · cases a <;> cases b <;> simp_all [Tag.same, below, Tag.isTransparent, Tag.opensGround]

theorem admits_of_allows {context : Tag} (allowed : context.allows t = true) :
    (ground.below context).Admits t := by
  cases context <;> simp only [Tag.allows, Bool.false_eq_true] at allowed <;>
    cases t <;>
    simp_all [below, Tag.isTransparent, Tag.opensGround, Admits, Tag.category, Tag.inEntity,
      Tag.isInlineContent, Tag.isText, Tag.text?, Tag.entity?]

theorem admits_of_transparent (opened : ground ≠ .closed) (passing : t.isTransparent = true) :
    ground.Admits t := by
  cases ground <;> cases t <;> simp_all [Tag.isTransparent, Admits, Tag.category]

theorem opened_of_admits (admitted : ground.Admits t) : ground ≠ .closed := by
  rintro rfl
  exact admitted

end Ground

def Tag.standsOnGround : Standing Ground where
  allows ground t := ground.Admits t
  below := Ground.below

theorem Tag.editable_standsOnGround : Tag.standsOnGround.Editable where
  toRespects := Standing.respects_of_eq Ground.below_eq_of_kin
  edits := by
    intro ground t _ admitted
    have opened : ground ≠ .closed := Ground.opened_of_admits admitted
    exact ⟨Ground.admits_of_transparent opened rfl, Ground.admits_of_transparent opened rfl,
      Ground.admits_of_transparent opened rfl, Ground.admits_of_transparent opened rfl, rfl, rfl,
      rfl⟩
  texts := by
    intro ground value admitted
    cases ground with
    | parts => exact absurd rfl admitted.1
    | running => exact ⟨by simp [standsOnGround, Ground.Admits, category], fun _ => admitted⟩
    | closed => exact admitted.elim
  ends := by
    intro ground value t admitted
    exact admitted

/-! ### Accepted content -/

/-- The ground that a setting amounts to. -/
def Setting.ground (s : Setting) : Ground := Ground.closed.below s.context

namespace Setting

variable {s : Setting} {t : Tag}

theorem ground_below (s : Setting) (t : Tag) :
    (Setting.below (some s) t).ground = s.ground.below t := by
  cases passing : t.isTransparent with
  | true =>
    rw [Ground.below_of_transparent passing]
    simp [ground, below, passing]
  | false =>
    have decided : s.ground.below t = Ground.closed.below t := Ground.below_eq_of_decides passing
    rw [decided]
    simp [ground, below, passing]

theorem admits_ground (allowed : s.parent.allowsChild s.context t = true)
    (opened : s.parent.isTransparent = true → s.ground ≠ .closed) : s.ground.Admits t := by
  rcases Tag.allowsChild_cases allowed with ⟨parent, branch⟩ | ⟨-, -, half | allowed'⟩
  · apply Ground.admits_of_transparent (opened (by rw [parent]; rfl))
    cases t <;> simp_all [Tag.category, Tag.isTransparent]
  · have parent : s.parent = .replace := by
      cases hp : s.parent <;> cases t <;> simp_all [Tag.allowsChild, Tag.category]
    apply Ground.admits_of_transparent (opened (by rw [parent]; rfl))
    cases t <;> simp_all [Tag.category, Tag.isTransparent]
  · exact Ground.admits_of_allows allowed'

end Setting

theorem stands_onGround_liftInherited {t : Forest Tag} {s : Setting} {depth : Nat}
    (h : Forest.grammarFault? (some s) depth t = none)
    (opened : s.parent.isTransparent = true → s.ground ≠ .closed) (b : Bool) :
    Forest.Stands Tag.standsOnGround s.ground (Forest.liftInherited b t) := by
  induction t using Forest.induction generalizing s depth b with
  | nil => trivial
  | cons t e cs rest hcs hrest =>
    obtain ⟨fault, inside, others⟩ := grammarFault?_cons h
    have admitted : s.ground.Admits t :=
      Setting.admits_ground ((Tag.fault?_none fault).2 s rfl) opened
    have opened' (passing : t.isTransparent = true) : s.ground.below t ≠ .closed := by
      rw [Ground.below_of_transparent passing]
      exact Ground.opened_of_admits admitted
    have below := hcs inside
    rw [Setting.ground_below] at below
    rw [Forest.liftInherited, Forest.stands_append]
    refine ⟨?_, hrest others opened b⟩
    by_cases inherited : t = .inherited
    · subst inherited
      rw [Node.liftInherited, if_pos rfl]
      exact below opened' true
    · rw [Node.liftInherited, if_neg inherited]
      exact ⟨⟨admitted, below opened' _⟩, trivial⟩

open Standardize in
theorem stands_onGround_combined {inputs : List (Forest Tag)}
    (accepted : ∀ t ∈ inputs, Forest.documentFault? t = none) :
    Forest.Stands Tag.standsOnGround .parts (combined inputs) := by
  rw [Forest.stands_iff]
  intro m hm
  obtain ⟨t, ht, hm⟩ := List.mem_flatMap.1 hm
  obtain ⟨n, hn, hm⟩ := List.mem_flatMap.1 hm
  obtain ⟨roots, grammar⟩ := Forest.documentFault?_none (accepted t ht)
  have root := roots n hn
  have grammar := Forest.grammarFault?_of_mem grammar hn
  rcases n with ⟨d, e, cs⟩
  simp only [Node.grammarFault?, Option.or_eq_none_iff] at grammar
  have below (b : Bool) (decides : d.isTransparent = false) :
      Forest.Stands Tag.standsOnGround (Ground.closed.below d) (Forest.liftInherited b cs) :=
    stands_onGround_liftInherited grammar.2
      (fun passing => absurd (show d.isTransparent = true from passing) (by simp [decides])) b
  cases d with
  | asset key => exact Forest.stands_iff.1 (below false rfl) m hm
  | entity entity =>
    have lifted : rootContent ⟨.entity entity, e, cs⟩ =
        [⟨.entity entity, { e with inherited := e.inherited },
          Forest.liftInherited e.inherited cs⟩] := by
      simp [rootContent, Node.liftInherited]
    rw [lifted] at hm
    obtain rfl := List.mem_singleton.1 hm
    exact ⟨⟨by simp [Tag.category], by simp [Tag.category]⟩, below _ rfl⟩
  | _ => simp [Tag.isContainer] at root

/-! ### Paths -/

namespace Path

abbrev IsGrounded (ground : Ground) (p : Path Tag) : Prop :=
  Path.Stands Tag.standsOnGround ground p

variable {ground : Ground} {p q : Path Tag}

theorem isGrounded_of_transparent (opened : ground ≠ .closed)
    (passing : ∀ s ∈ p, s.data.isTransparent = true) (below : IsGrounded ground q) :
    IsGrounded ground (p ++ q) := by
  induction p with
  | nil => exact below
  | cons s p ih =>
    obtain ⟨own, passing⟩ := List.forall_mem_cons.1 passing
    refine ⟨Ground.admits_of_transparent opened own, ?_⟩
    have stays : Tag.standsOnGround.below ground s.data = ground := Ground.below_of_transparent own
    rw [stays]
    exact ih passing

theorem scopeBelow_of_transparent (passing : ∀ s ∈ p, s.data.isTransparent = true) :
    Path.scopeBelow Tag.standsOnGround ground p = ground := by
  induction p with
  | nil => rfl
  | cons s p ih =>
    obtain ⟨own, passing⟩ := List.forall_mem_cons.1 passing
    have stays : Tag.standsOnGround.below ground s.data = ground := Ground.below_of_transparent own
    rw [scopeBelow, stays, ih passing]

/-- Below an entity, above the first field and the first entity within, all steps pass on what
stands above them, unless the path ends there. -/
theorem IsGrounded.passing (h : IsGrounded .parts (p ++ q)) (content : IsContent p)
    (plain : ∀ s ∈ p, s.data.field? = none ∧ s.data.entity? = none) (more : q ≠ []) :
    ∀ s ∈ p, s.data.isTransparent = true := by
  induction p with
  | nil => simp
  | cons s p ih =>
    obtain ⟨⟨field, entity⟩, plain⟩ := List.forall_mem_cons.1 plain
    obtain ⟨own, content⟩ := List.forall_mem_cons.1 content
    obtain ⟨⟨notInline, notContainer⟩, below⟩ := h
    cases passing : s.data.isTransparent with
    | true =>
      have stays : Tag.standsOnGround.below .parts s.data = .parts :=
        Ground.below_of_transparent passing
      rw [stays] at below
      exact List.forall_mem_cons.2 ⟨passing, ih below content plain⟩
    | false =>
      -- an item stands here, and nothing may stand below it
      exfalso
      have closed : Tag.standsOnGround.below .parts s.data = .closed := by
        cases hd : s.data <;> simp_all [Tag.standsOnGround, Ground.below, Tag.isTransparent,
          Tag.opensGround, Tag.category, Tag.field?, Tag.entity?, Standardize.isDeclaration]
      obtain ⟨x, rest, tail⟩ : ∃ x rest, p ++ q = x :: rest :=
        List.exists_cons_of_ne_nil (by simp [more])
      rw [closed] at below
      have below : IsGrounded .closed (p ++ q) := below
      rw [tail] at below
      exact below.1

theorem IsGrounded.inline (h : IsGrounded .running p) :
    ∀ s ∈ p, s.data.category ≠ .field ∧ s.data.category ≠ .entity := by
  have stays {t : Tag} (admitted : Ground.running.Admits t) :
      Ground.running.below t = .running ∨ Ground.running.below t = .closed := by
    cases t <;> simp_all [Ground.Admits, Ground.below, Tag.category, Tag.isTransparent,
      Tag.opensGround]
  induction p with
  | nil => simp
  | cons s p ih =>
    obtain ⟨admitted, below⟩ := h
    have own : Ground.running.Admits s.data := admitted
    refine List.forall_mem_cons.2 ⟨?_, ?_⟩
    · constructor <;> intro category <;> simp [Ground.Admits, category] at own
    · rcases stays own with running | closed
      · have running : Tag.standsOnGround.below .running s.data = .running := running
        rw [running] at below
        exact ih below
      · have closed : Tag.standsOnGround.below .running s.data = .closed := closed
        rw [closed] at below
        cases p with
        | nil => simp
        | cons x p => exact below.1.elim

end Path

/-! ### What a component sees -/

def Tag.StandsChoosing (above : Option Tag) (t : Tag) : Prop :=
  above = some .conditional → t.category = .branch

theorem Tag.StandsLifted.choosing {above : Option Tag} {t : Tag} (h : Tag.StandsLifted above t) :
    Tag.StandsChoosing above t :=
  fun conditional => (h.2 .conditional conditional).2 rfl

namespace Address

open Ownership (untilNested ownedPath?)
open SplitChain

variable {a : Address} {docs : List (Path Tag)} {ground : Ground}

theorem isGrounded_untilNested {q : Path Tag} (h : q.IsGrounded ground) :
    (untilNested q).IsGrounded ground := by
  induction q generalizing ground with
  | nil => trivial
  | cons s q ih =>
    rw [untilNested]
    split
    · rename_i nested
      obtain ⟨e, entity⟩ := Option.isSome_iff_exists.1 nested
      have own : ground.Admits s.data := h.1
      refine ⟨?_, trivial⟩
      show ground.Admits s.data.withoutSource
      cases hd : s.data <;> simp_all [Tag.entity?]
      cases ground <;> simp_all [Tag.withoutSource, Ground.Admits, Tag.category]
    · exact ⟨h.1, ih h.2⟩

theorem choosing_untilNested {above : Option Tag} {q : Path Tag}
    (h : Path.Stands (.under Tag.StandsChoosing) above q) :
    Path.Stands (.under Tag.StandsChoosing) above (untilNested q) := by
  induction q generalizing above with
  | nil => trivial
  | cons s q ih =>
    rw [untilNested]
    split
    · refine ⟨fun conditional => ?_, trivial⟩
      show s.data.withoutSource.category = .branch
      rw [← (Tag.kin_withoutSource s.data).category_eq]
      exact h.1 conditional
    · exact ⟨h.1, ih h.2⟩

theorem content_untilNested {q : Path Tag} (h : q.IsContent) : (untilNested q).IsContent := by
  induction q with
  | nil => exact h
  | cons s q ih =>
    obtain ⟨own, later⟩ := List.forall_mem_cons.1 h
    rw [untilNested]
    split
    · intro x hx
      rw [List.mem_singleton.1 hx]
      cases hd : s.data <;> simp_all [Standardize.isDeclaration, Tag.withoutSource]
    · exact List.forall_mem_cons.2 ⟨own, ih later⟩

/-- Conditionals, the entity, and below it what stands on the ground of its parts. -/
structure LeadsTo (a : Address) (c : Path Tag) (t : Step Tag) (r : Path Tag) : Prop where
  above : ∀ s ∈ c, s.data.isChain = true
  target : a.isTarget t.data = true
  below : r.IsGrounded .parts
  content : r.IsContent
  others : ∀ s ∈ r, a.isTarget s.data = false
  ends : ∀ s ∈ r.dropLast, s.data.entity? = none

/-- A path that leads to the entity and on below it. -/
def Leads (a : Address) (p : Path Tag) : Prop := ∃ c t r, p = c ++ t :: r ∧ a.LeadsTo c t r

variable {c r : Path Tag} {t : Step Tag}

theorem below_target_ground {t : Tag} (target : a.isTarget t = true) (ground : Ground) :
    Tag.standsOnGround.below ground t = .parts := by
  obtain ⟨e, rfl, -, -⟩ := exists_entity_of_isTarget target
  rfl

/-- What a component sees of a path leads to its entity, and below that every conditional is
followed by a branch. -/
theorem leads_ownedPath? {p o : Path Tag} (h : p.IsGrounded ground)
    (lifted : Path.Stands (.under Tag.StandsLifted) none p) (content : p.IsContent)
    (ho : ownedPath? a.kind a.key p = some o) :
    ∃ c t r, o = c ++ t :: r ∧ a.LeadsTo c t r ∧
      Path.Stands (.under Tag.StandsChoosing) none r := by
  obtain ⟨above, t, below, rfl, target, others, seen⟩ := ownedPath?_cases ho
  obtain ⟨e, entity, -, -⟩ := exists_entity_of_isTarget target
  obtain ⟨-, -, grounded⟩ := Path.stands_append.1 h
  rw [below_target_ground target] at grounded
  have choosing : Path.Stands (.under Tag.StandsChoosing) none below := by
    have chosen := (Path.stands_after lifted).mono (fun _ _ h => h.choosing)
    cases below with
    | nil => trivial
    | cons x below => exact ⟨by simp [Tag.StandsChoosing], chosen.2⟩
  have inside : Path.IsContent below := fun s hs => content s (by simp [hs])
  rcases seen with ⟨-, rfl⟩ | ⟨-, rfl⟩
  · exact ⟨[], t, [], rfl, ⟨by simp, target, trivial, by simp [Path.IsContent], by simp, by simp⟩,
      trivial⟩
  · exact ⟨_, t, _, rfl, ⟨fun s hs => (List.mem_filter.1 hs).2, target,
      isGrounded_untilNested grounded, content_untilNested inside, isTarget_untilNested others,
      entity?_untilNested below⟩, choosing_untilNested choosing⟩

theorem LeadsTo.inner {m d : Path Tag} {x : Step Tag} (h : a.LeadsTo c t (m ++ x :: d)) :
    ∀ s ∈ m, s.data.entity? = none := by
  intro s hs
  apply h.ends s
  rw [List.dropLast_append_of_ne_nil (by simp)]
  exact List.mem_append_left _ hs

theorem LeadsTo.fill (h : a.LeadsTo c t r) (passing : ∀ s ∈ r, s.data.isTransparent = true)
    {step : Option (Step Tag)}
    (field : step.toList = [] ∨ ∃ x g, step.toList = [x] ∧ x.data = .field g) :
    a.LeadsTo c t (r ++ step.toList) := by
  rcases field with none | ⟨x, g, one, filled⟩
  · rwa [none, List.append_nil]
  rw [one]
  have plain : ∀ s ∈ r, s.data.entity? = none := by
    intro s hs
    have := passing s hs
    cases hd : s.data <;> simp_all [Tag.isTransparent, Tag.entity?]
  constructor
  · exact h.above
  · exact h.target
  · refine Path.stands_append.2 ⟨h.below, ?_, trivial⟩
    rw [Path.scopeBelow_of_transparent passing, filled]
    exact ⟨by simp [Tag.category], by simp [Tag.category]⟩
  · exact List.forall_mem_append.2 ⟨h.content, by simp [filled, Standardize.isDeclaration]⟩
  · exact List.forall_mem_append.2 ⟨h.others, by simp [filled, isTarget, Tag.isEntityOf]⟩
  · rw [List.dropLast_concat]
    exact plain

theorem LeadsTo.left {m v : Path Tag} (h : a.LeadsTo c t (m ++ v)) : a.LeadsTo c t m where
  above := h.above
  target := h.target
  below := (Path.stands_append.1 h.below).1
  content s hs := h.content s (List.mem_append_left _ hs)
  others s hs := h.others s (List.mem_append_left _ hs)
  ends := by
    intro s hs
    rcases v with _ | ⟨x, v⟩
    · exact h.ends s (by rwa [List.append_nil])
    · apply h.ends s
      rw [List.dropLast_append_of_ne_nil (by simp)]
      exact List.mem_append_left _ ((List.dropLast_sublist _).subset hs)

theorem leads_placeholder_below {target step : Option (Step Tag)} (h : a.LeadsTo c t r)
    (passing : (∀ s ∈ r, s.data.field? = none) → ∀ s ∈ r, s.data.isTransparent = true)
    (field : step.toList = [] ∨ ∃ x g, step.toList = [x] ∧ x.data = .field g) :
    a.Leads (placeholder a.kind a.key target step (c ++ t :: r)) := by
  have targeted : (c ++ t :: r).any (fun x => x.data.isEntityOf a.kind a.key) = true :=
    List.any_eq_true.2 ⟨t, by simp, h.target⟩
  rw [placeholder, if_pos targeted]
  split
  · exact ⟨c, t, r, rfl, h⟩
  · rename_i unfilled
    have unfilled : ∀ s ∈ r, s.data.field? = none := by
      intro s hs
      have := List.any_eq_false.1 (Bool.eq_false_iff.2 unfilled) s (by simp [hs])
      simpa using this
    exact ⟨c, t, _, by simp, h.fill (passing unfilled) field⟩

theorem leads_placeholder_above {step : Option (Step Tag)} (above : ∀ s ∈ c, s.data.isChain = true)
    (target : a.isTarget t.data = true)
    (field : step.toList = [] ∨ ∃ x g, step.toList = [x] ∧ x.data = .field g) :
    a.Leads (placeholder a.kind a.key (some t) step c) := by
  have untargeted : c.any (fun x => x.data.isEntityOf a.kind a.key) = false := by
    rw [List.any_eq_false]
    intro s hs
    have := above s hs
    cases hd : s.data <;> simp_all [Tag.isChain, Tag.isEntityOf]
  have bare : a.LeadsTo c t [] :=
    ⟨above, target, trivial, by simp [Path.IsContent], by simp, by simp⟩
  have once : placeholder a.kind a.key (some t) step c =
      placeholder a.kind a.key (some t) step (c ++ [t]) := by
    have targeted : (c ++ [t]).any (fun x => x.data.isEntityOf a.kind a.key) = true :=
      List.any_eq_true.2 ⟨t, by simp, target⟩
    simp only [placeholder, untargeted, targeted, if_true, if_false, Bool.false_eq_true,
      Option.toList_some]
  rw [once]
  exact leads_placeholder_below bare (by simp) field

/-- Content paths that agree and stand on their grounds, outside of declarations. -/
structure AreGrounded (docs : List (Path Tag)) : Prop where
  lifted : AreLifted docs
  grounded : ∀ p ∈ docs, p.IsGrounded .parts
  content : ∀ p ∈ docs, p.IsContent

theorem leads_view (hdocs : AreGrounded docs) {o : Path Tag} (ho : o ∈ a.view docs) :
    ∃ c t r, o = c ++ t :: r ∧ a.LeadsTo c t r ∧
      Path.Stands (.under Tag.StandsChoosing) none r := by
  obtain ⟨p, hp, hown⟩ := mem_view.1 ho
  exact leads_ownedPath? (hdocs.grounded p hp) (hdocs.lifted.stands p hp) (hdocs.content p hp) hown

theorem targetStep_of_leads (hdocs : AreGrounded docs) {o : Path Tag} (ho : o ∈ a.view docs) :
    ∃ t, targetStep a.kind a.key (a.view docs) = some t ∧ a.isTarget t.data = true := by
  obtain ⟨c, t, r, rfl, leads, -⟩ := leads_view hdocs ho
  rcases hfind : targetStep a.kind a.key (a.view docs) with _ | t'
  · exact absurd leads.target (List.find?_eq_none.1 hfind t (List.mem_flatten.2 ⟨_, ho, by simp⟩))
  · exact ⟨t', rfl, targetStep_isTarget hfind⟩

/-- What goes down to a branch below the entity leads there, and passes on what may stand where it
has no field. -/
theorem LeadsTo.branch {z v : Path Tag} {w b : Step Tag} (h : a.LeadsTo c t (z ++ w :: b :: v))
    (choosing : Path.Stands (.under Tag.StandsChoosing) none (z ++ w :: b :: v))
    (hw : w.data = .conditional) :
    a.LeadsTo c t (z ++ [w, b]) ∧ ((∀ s ∈ z ++ [w, b], s.data.field? = none) →
      ∀ s ∈ z ++ [w, b], s.data.isTransparent = true) := by
  have split : z ++ w :: b :: v = (z ++ [w, b]) ++ v := by simp
  refine ⟨by rw [split] at h; exact h.left, fun unfilled => ?_⟩
  have branch : b.data.category = .branch := by
    obtain ⟨-, -, chosen, -⟩ := Path.stands_append.1 choosing
    exact chosen (by rw [hw])
  have passing := h.below.passing (fun s hs => h.content s (by simp [hs]))
    (fun s hs => ⟨unfilled s (by simp [hs]), h.inner s hs⟩) (by simp)
  have waits : w.data.isTransparent = true := by
    rw [hw]
    rfl
  have passes : b.data.isTransparent = true := by
    cases hd : b.data <;> first | rfl | simp [hd, Tag.category] at branch
  exact List.forall_mem_append.2 ⟨passing, by simp [waits, passes]⟩

/-- What stands in for a branch in a slot that lacks it leads like any path. -/
theorem leads_placeholder (hdocs : AreGrounded docs) {o : Path Tag} (ho : o ∈ a.view docs)
    {s : Site} (hs : s ∈ sites o) {x : Nat × Slot} (hx : x ∈ lacking a.kind (a.view docs) s) :
    a.Leads (placeholder a.kind a.key (targetStep a.kind a.key (a.view docs))
      (x.2.bind (fieldStep a.kind (a.view docs))) s.path) := by
  have field : (x.2.bind (fieldStep a.kind (a.view docs))).toList = [] ∨
      ∃ y g, (x.2.bind (fieldStep a.kind (a.view docs))).toList = [y] ∧ y.data = .field g := by
    rcases fieldStep_of_lacking hx with none | ⟨y, g, one, filled, -⟩
    · exact .inl none
    · exact .inr ⟨y, g, one, filled⟩
  obtain ⟨u, w, b, v, hsplit, hw, -, -, hpath⟩ := exists_of_mem_sitesFrom hs
  rw [List.nil_append] at hpath
  obtain ⟨c, t, r, rfl, leads, choosing⟩ := leads_view hdocs ho
  rcases conditional_cases leads.target hw hsplit.symm with
    ⟨z, rfl⟩ | ⟨rfl, rfl, rfl⟩ | ⟨z, rfl, rfl⟩
  · -- the conditional stands above the entity
    obtain ⟨t', found, target⟩ := targetStep_of_leads hdocs ho
    rw [hpath, found]
    refine leads_placeholder_above (fun s hs => leads.above s ?_) target field
    simp only [List.mem_append, List.mem_cons, List.not_mem_nil, or_false] at hs ⊢
    tauto
  · have bare : a.LeadsTo (u ++ [w]) b [] :=
      ⟨leads.above, leads.target, trivial, by simp [Path.IsContent], by simp, by simp⟩
    have path : s.path = (u ++ [w]) ++ b :: [] := by
      rw [hpath]
      simp
    rw [path]
    exact leads_placeholder_below bare (by simp) field
  · obtain ⟨down, passing⟩ := leads.branch choosing hw
    have path : s.path = c ++ t :: (z ++ [w, b]) := by
      rw [hpath]
      simp
    rw [path]
    exact leads_placeholder_below down passing field

theorem leads_complete (hdocs : AreGrounded docs) {p : Path Tag}
    (h : p ∈ complete a.kind a.key (a.view docs)) : a.Leads p := by
  rw [complete_eq_laid] at h
  rcases mem_laid h with h | ⟨o, ho, s, hs, h⟩
  · obtain ⟨c, t, r, rfl, leads, -⟩ := leads_view hdocs h
    exact ⟨c, t, r, rfl, leads⟩
  · obtain ⟨x, hx, rfl⟩ := List.mem_map.1 h
    exact leads_placeholder hdocs ho hs hx

/-! ### The final order -/

theorem isAnchor_of_plain {s : Tag} (field : s.category ≠ .field) (other : a.isTarget s = false) :
    Path.isAnchor a.kind a.key s = false := by
  have other : s.isEntityOf a.kind a.key = false := other
  simp [Path.isAnchor, field, other]

theorem LeadsTo.entity_admitted (h : a.LeadsTo c t r) : Ground.parts.Admits t.data := by
  obtain ⟨e, entity, -, -⟩ := exists_entity_of_isTarget h.target
  rw [entity]
  exact ⟨by simp [Tag.category], by simp [Tag.category]⟩

theorem LeadsTo.above_transparent (h : a.LeadsTo c t r) : ∀ s ∈ c, s.data.isTransparent = true := by
  intro s hs
  have chain := h.above s hs
  cases hd : s.data <;> simp_all [Tag.isChain, Tag.isTransparent]

theorem LeadsTo.reorder_plain (h : a.LeadsTo c t r) (plain : ∀ s ∈ r, s.data.field? = none) :
    Path.IsGrounded .parts (Path.reorder (Standardize.reorderings a.kind a.key) (c ++ t :: r)) := by
  rw [reorder_beside h.above h.target (fun s hs => ⟨plain s hs, h.others s hs⟩)]
  refine ⟨h.entity_admitted, ?_⟩
  rw [below_target_ground h.target]
  exact Path.isGrounded_of_transparent (by simp) h.above_transparent h.below

theorem LeadsTo.reorder_field {m d : Path Tag} {x : Step Tag} {g : FieldKind}
    (h : a.LeadsTo c t (m ++ x :: d)) (field : x.data = .field g)
    (unfilled : ∀ s ∈ m, s.data.field? = none) :
    Path.IsGrounded .parts
      (Path.reorder (Standardize.reorderings a.kind a.key) (c ++ t :: (m ++ x :: d))) := by
  have passing := h.below.passing (fun s hs => h.content s (by simp [hs]))
    (fun s hs => ⟨unfilled s hs, h.inner s hs⟩) (by simp)
  have opened : Tag.standsOnGround.below .parts x.data = .running := by
    rw [field]
    rfl
  obtain ⟨stands, inner⟩ := (Path.stands_append.1 h.below).2
  rw [Path.scopeBelow_of_transparent passing] at stands inner
  rw [opened] at inner
  rw [reorder_through h.above h.target
    (fun s hs => isAnchor_of_plain (by
      have := passing s hs
      cases hd : s.data <;> simp_all [Tag.isTransparent, Tag.category])
      (h.others s (by simp [hs])))
    (by rw [field]; rfl)
    (fun s hs => isAnchor_of_plain (Path.IsGrounded.inline inner s hs).1
      (h.others s (by simp [hs])))]
  refine ⟨h.entity_admitted, ?_⟩
  rw [below_target_ground h.target]
  refine ⟨stands, ?_⟩
  rw [opened]
  refine Path.isGrounded_of_transparent (by simp) ?_ inner
  intro s hs
  rcases List.mem_append.1 hs with hs | hs
  · rcases List.mem_append.1 hs with hs | hs
    · exact h.above_transparent s hs
    · exact passing s (List.mem_filter.1 hs).1
  · exact passing s (List.mem_filter.1 hs).1

/-- In their final order, too, the steps of a path stand on their grounds. -/
theorem Leads.reorder {p : Path Tag} (h : a.Leads p) :
    Path.IsGrounded .parts (Path.reorder (Standardize.reorderings a.kind a.key) p) := by
  obtain ⟨c, t, r, rfl, leads⟩ := h
  cases hfind : r.find? (fun s => s.data.field?.isSome) with
  | none =>
    refine leads.reorder_plain fun s hs => ?_
    simpa using List.find?_eq_none.1 hfind s hs
  | some x =>
    obtain ⟨filled, m, d, rfl, unfilled⟩ := List.find?_eq_some_iff_append.1 hfind
    obtain ⟨g, field⟩ : ∃ g, x.data = .field g := by
      cases hd : x.data <;> simp_all [Tag.field?]
    exact leads.reorder_field field fun s hs => by simpa using unfilled s hs

/-- The tree of a component stands on its grounds. -/
theorem stands_onGround_grown (hdocs : AreGrounded docs) {grown : Forest Tag}
    (h : Standardize.growComponent a.kind a.key (a.view docs) = .ok grown) :
    Forest.Stands Tag.standsOnGround .parts grown := by
  rw [growComponent_eq h]
  apply Growth.stands_insertAll Tag.editable_standsOnGround.toRespects
    (hdocs.lifted.agree.of_steps fun s hs => kin_of_mem_reordered hs)
  intro q hq
  obtain ⟨p, hp, rfl⟩ := List.mem_map.1 hq
  exact (leads_complete hdocs hp).reorder

end Address

end WorldMarkup
