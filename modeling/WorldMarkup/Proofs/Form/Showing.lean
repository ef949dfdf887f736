import WorldMarkup.Proofs.Form.Choosing
import WorldMarkup.Proofs.Form.Preservation

/-!
What a reader sees of a field once every condition is decided. A conditional around or within a
component shows, in each of its fields, what it shows of the branches that speak of the component.
Main statement: every field shows under every evaluation what the documents show in it, if each
conditional is taken for those branches.
-/

set_option autoImplicit false
set_option relaxedAutoImplicit false

namespace WorldMarkup

open Standardize

/-- Whether a branch of a conditional speaks of the component: once the wrappers of inherited
content are dissolved, the component has content on some path of it. -/
def Address.speaks (a : Address) (above : List Tag) (b : Node Tag) : Bool :=
  a.touches (a.isOwned above) (b.liftInherited false)

/-- Each conditional is taken for the branches that speak of the component, and shows the one that
they come down to with those right behind it that repeat its condition. -/
def Choice.ofComponent (a : Address) (holds : String → Bool) : Choice where
  pick above bs := Forest.chosenRun holds (List.filter (a.speaks above) bs)
  sublist _ _ := (Forest.chosenRun_sublist holds _).trans List.filter_sublist

/-! ### Content without wrappers -/

namespace Forest

theorem stripInherited_append (t u : Forest Tag) :
    stripInherited (t ++ u) = stripInherited t ++ stripInherited u := by
  simp [stripInherited_eq_map]

theorem stripInherited_liftInherited (b b' b'' : Bool) (t : Forest Tag) :
    stripInherited (liftInherited b (liftInherited b' t)) = stripInherited (liftInherited b'' t) := by
  induction t using Forest.induction generalizing b b' b'' with
  | nil => rfl
  | cons d e cs rest hcs hrest =>
    have append (x y : Forest Tag) :
        liftInherited b (x ++ y) = liftInherited b x ++ liftInherited b y := by
      induction x with
      | nil => rfl
      | cons n x ih => simp [liftInherited, ih]
    rw [liftInherited, append, stripInherited_append, hrest b b' b'', liftInherited,
      stripInherited_append, Node.liftInherited, Node.liftInherited]
    by_cases inherited : d = .inherited
    · rw [if_pos inherited, if_pos inherited, hcs b true true]
    · rw [if_neg inherited, if_neg inherited]
      simp only [liftInherited, Node.liftInherited, if_neg inherited, stripInherited,
        Node.stripInherited, List.append_nil, hcs _ _ (b'' || e.inherited)]

theorem stripInherited_liftInherited_of_fits {t : Forest Tag} {c : Option Tag} (b : Bool) :
    (Fits c t → stripInherited (liftInherited b t) = stripInherited t) ∧
      (AreBranches c t → stripInherited (liftInherited b t) = stripInherited t) := by
  induction t using Forest.induction generalizing c b with
  | nil => exact ⟨fun _ => rfl, fun _ => rfl⟩
  | cons d e cs rest hcs hrest =>
    have node (plain : d ≠ .inherited)
        (below : ∀ b, stripInherited (liftInherited b cs) = stripInherited cs)
        (beside : stripInherited (liftInherited b rest) = stripInherited rest) :
        stripInherited (liftInherited b (⟨d, e, cs⟩ :: rest)) =
          stripInherited (⟨d, e, cs⟩ :: rest) := by
      rw [liftInherited, stripInherited_append, beside, Node.liftInherited, if_neg plain]
      simp [stripInherited, Node.stripInherited, below]
    constructor
    · intro fits
      obtain ⟨⟨stands, below⟩, beside⟩ := fits
      have plain : d ≠ .inherited := by
        rintro rfl
        simp [Tag.standsIn] at stands
      refine node plain (fun b => ?_) ((hrest b).1 beside)
      split at below
      · exact (hcs b).2 below.2
      · exact (hcs b).1 below
    · intro branches
      obtain ⟨own, below, beside⟩ := branches
      have plain : d ≠ .inherited := by
        rintro rfl
        simp [Tag.category] at own
      exact node plain (fun b => (hcs b).1 below) ((hrest b).2 beside)

end Forest

namespace Address

variable {a : Address} {place : Place} {c : Option Tag} {t : Forest Tag} {trail : List Tag}

theorem touches_stripInherited (entered : Bool) (t : Forest Tag) :
    a.touches entered (Forest.stripInherited t) = a.touches entered t := by
  induction t using Forest.induction generalizing entered with
  | nil => rfl
  | cons d e cs rest hcs hrest =>
    have empty : (Forest.stripInherited cs).isEmpty = cs.isEmpty := by cases cs <;> rfl
    simp only [Forest.stripInherited, Node.stripInherited, touches, touchesNode, hcs, hrest, empty]

theorem speaks_of_areBranches (h : Forest.AreBranches c t) {b : Node Tag} (hb : b ∈ t) :
    a.speaks trail b = a.touchesNode (a.isOwned trail) b := by
  obtain ⟨own, below⟩ := Forest.forall_branch_of_areBranches h b hb
  have alone : Forest.AreBranches c [b] := Forest.areBranches_node.2 ⟨own, below, trivial⟩
  have lifted : b.liftInherited false = Forest.liftInherited false [b] := by
    simp [Forest.liftInherited]
  rw [speaks, lifted, ← touches_stripInherited,
    (Forest.stripInherited_liftInherited_of_fits false).2 alone, touches_stripInherited]
  simp [touches]

theorem touchesNode_eq {d : Tag} (entity : d.entity? = none) (content : isDeclaration d = false)
    (entered : Bool) (e : Extra) (cs : Forest Tag) :
    a.touchesNode entered ⟨d, e, cs⟩ = if cs.isEmpty then entered else a.touches entered cs := by
  rw [touchesNode, isTarget_eq_false entity, content]
  rfl

theorem touches_mono {entered : Bool} (h : a.touches false t = true) : a.touches entered t = true := by
  induction t using Forest.induction with
  | nil => simp [touches] at h
  | cons d e cs rest hcs hrest =>
    simp only [touches, touchesNode, Bool.or_eq_true, Bool.and_eq_true] at h ⊢
    refine h.imp (And.imp_right fun inside => ?_) hrest
    split
    · simpa [*] using inside
    · rename_i other
      rw [if_neg other] at inside
      split
      · simp [*] at inside
      · rename_i filled
        rw [if_neg filled] at inside
        exact hcs inside

theorem touches_running (hc : Suits .within c) (filled : t ≠ []) :
    (Forest.Fits c t → a.touches true t = true) ∧
      (Forest.AreBranches c t → a.touches true t = true) := by
  induction t using Forest.induction generalizing c with
  | nil => exact absurd rfl filled
  | cons d e cs rest hcs hrest =>
    have node (kept : d.isKept = true) (inside : cs ≠ [] → a.touches true cs = true) :
        a.touches true (⟨d, e, cs⟩ :: rest) = true := by
      rw [touches, touchesNode_eq (entity?_of_isKept kept) (isDeclaration_of_isKept kept)]
      cases cs with
      | nil => rfl
      | cons n cs => simp [inside (by simp)]
    constructor
    · intro fits
      obtain ⟨⟨stands, below⟩, -⟩ := fits
      refine node (isKept_of_suits hc stands) fun filled => ?_
      by_cases conditional : d = .conditional
      · rw [if_pos conditional] at below
        exact (hcs hc filled).2 below.2
      · rw [if_neg conditional] at below
        have inline := inline_of_suits hc stands conditional
        exact (hcs (fun _ => ⟨d, rfl, .inr inline⟩) filled).1 below
    · intro branches
      obtain ⟨own, below, -⟩ := branches
      exact node (isKept_of_isChain (isChain_of_branch own)) fun filled => (hcs hc filled).1 below

theorem touchesNode_around {entered : Bool} {d : Tag} {e : Extra} {cs : Forest Tag}
    (entity : d.entity? = none) (content : isDeclaration d = false)
    (inside : a.touches entered cs = true) : a.touchesNode entered ⟨d, e, cs⟩ = true := by
  rw [touchesNode_eq entity content]
  cases cs with
  | nil => simp [touches] at inside
  | cons n cs => simpa using inside

theorem touchesNode_field {e : Extra} {cs : Forest Tag}
    (below : Forest.Fits (some (.field a.field)) cs) :
    a.touchesNode true ⟨.field a.field, e, cs⟩ = true := by
  rw [touchesNode_eq rfl rfl]
  cases cs with
  | nil => rfl
  | cons n cs => exact (touches_running (fun _ => ⟨_, rfl, .inl rfl⟩) (by simp)).1 below

theorem touchesNode_entity {x : Entity} {e : Extra} {cs : Forest Tag} {entered : Bool}
    (inside : a.leads (if a.isTarget (.entity x) then .owned else .outside) cs = true)
    (touched : a.touches (a.isTarget (.entity x)) cs = true) :
    a.touchesNode entered ⟨.entity x, e, cs⟩ = true := by
  rw [touchesNode]
  cases target : a.isTarget (.entity x) with
  | true =>
    rw [target] at touched
    exact touched
  | false =>
    rw [target] at touched
    cases cs with
    | nil => simp [leads] at inside
    | cons n cs => simpa [isDeclaration] using touches_mono touched

/-- What leads to the field is content of the component. -/
theorem touches_of_leads (hplace : Suits place c) (leading : a.leads place t = true) :
    (Forest.Fits c t → a.touches (place != .outside) t = true) ∧
      (Forest.AreBranches c t → a.touches (place != .outside) t = true) := by
  have filled : t ≠ [] := by
    rintro rfl
    simp [leads] at leading
  by_cases within : place = .within
  · subst within
    exact touches_running hplace filled
  clear filled
  induction t using Forest.induction generalizing c place with
  | nil => simp [leads] at leading
  | cons d e cs rest hcs hrest =>
    rw [leads, Bool.or_eq_true] at leading
    constructor
    · intro fits
      rw [touches, Bool.or_eq_true]
      refine leading.imp (fun node => ?_) fun others => (hrest hplace others within).1 fits.2
      obtain ⟨stands, below⟩ := fits.1
      by_cases conditional : d = .conditional
      · subst conditional
        rw [if_pos rfl] at below
        exact touchesNode_around rfl rfl
          ((hcs hplace (leads_of_leadsNode below.1 node) within).2 below.2)
      rw [if_neg conditional] at below
      rcases hnext : a.next? place d with _ | after
      · simp [leadsNode, hnext] at node
      cases entity : d.entity? with
      | none =>
        obtain ⟨-, rfl⟩ := next?_of_standsIn within stands conditional entity hnext
        obtain rfl := eq_field_of_within within hnext
        have owned : place = .owned := by
          cases place with
          | owned => rfl
          | within => exact absurd rfl within
          | outside => simp [next?] at hnext
        subst owned
        exact touchesNode_field below
      | some x =>
        obtain rfl : d = .entity x := by
          cases d <;> simp_all [Tag.entity?]
        have inside : a.leads (if a.isTarget (.entity x) then .owned else .outside) cs = true := by
          rw [leadsNode, next?_entity within rfl] at node
          cases target : a.isTarget (.entity x) <;> simpa [target] using node
        have suits : Suits (if a.isTarget (.entity x) then .owned else .outside)
            (some (.entity x)) := by
          intro h
          split at h <;> simp at h
        have touched := (hcs suits inside (by split <;> simp)).1 below
        refine touchesNode_entity inside ?_
        cases target : a.isTarget (.entity x) <;> rw [target] at touched <;> exact touched
    · intro branches
      obtain ⟨own, below, beside⟩ := branches
      rw [touches, Bool.or_eq_true]
      refine leading.imp (fun node => ?_) fun others => (hrest hplace others within).2 beside
      have kept := isKept_of_isChain (isChain_of_branch own)
      rw [leadsNode, next?_chain place (isChain_of_branch own)] at node
      refine touchesNode_around (entity?_of_isKept kept) (isDeclaration_of_isKept kept)
        ((hcs hplace ?_ within).1 below)
      cases place with
      | within => exact absurd rfl within
      | _ => exact node

theorem excerptBranches_eq (hplace : Suits place c) (h : Forest.AreBranches c t) :
    a.excerptBranches place t =
      List.map (fun b => ⟨b.data, b.extra, a.excerpt place b.children⟩)
        (List.filter (a.touchesNode (place != .outside)) t) := by
  induction t with
  | nil => rfl
  | cons n t ih =>
    rcases n with ⟨d, e, cs⟩
    obtain ⟨own, below, beside⟩ := h
    have kept := isKept_of_isChain (isChain_of_branch own)
    rw [excerptBranches, ih beside, List.filter_cons]
    cases leading : a.leads place cs with
    | true =>
      have inside := (touches_of_leads hplace leading).1 below
      have touched : a.touchesNode (place != .outside) ⟨d, e, cs⟩ = true := by
        rw [touchesNode_eq (entity?_of_isKept kept) (isDeclaration_of_isKept kept)]
        cases cs with
        | nil => simp [touches] at inside
        | cons n cs => simpa using inside
      simp [touched]
    | false =>
      rw [if_neg Bool.false_ne_true]
      split <;> simp [excerpt_eq_nil_of_not_leads leading]

/-! ### The excerpt of content -/

variable {counts : List Tag → Bool} {choice : Choice} {holds : String → Bool}

theorem marksIn_eq_flatMap (t : Forest Tag) :
    Forest.marksIn a trail t = t.flatMap (Node.marksIn a trail) := by
  induction t with
  | nil => rfl
  | cons n t ih => rw [Forest.marksIn, ih, List.flatMap_cons]

theorem visible_of_marksIn_nil {n : Node Tag} (h : n.marksIn a trail = []) :
    n.visible a.covers choice trail = [] := by
  induction n using Node.induction generalizing trail with
  | node d e cs ih =>
    rw [Node.marksIn, List.append_eq_nil_iff, marksIn_eq_flatMap, List.flatMap_eq_nil_iff] at h
    obtain ⟨own, below⟩ := h
    have characters : (if a.covers (trail ++ [d]) then d.characters else []) = [] := by
      split
      · rename_i covers
        rw [if_pos covers] at own
        cases d <;> simp_all [Tag.marks, Tag.characters]
      · rfl
    rw [Node.visible, characters, List.nil_append, Forest.visible_eq_flatMap,
      List.flatMap_eq_nil_iff]
    intro m hm
    have among : m ∈ cs := by
      split at hm
      · exact (choice.sublist trail cs).subset hm
      · exact hm
    exact ih m among (below m among)

theorem visible_of_branch {d : Tag} (branch : d.category = .branch) (e : Extra) (cs : Forest Tag) :
    Node.visible counts choice trail ⟨d, e, cs⟩ = Forest.visible counts choice (trail ++ [d]) cs := by
  obtain ⟨none, other⟩ := Forest.characters_of_branch branch
  rw [Node.visible, none, ite_self, if_neg other, List.nil_append]

/-- A conditional shows in the excerpt what is shown of the branches of it that speak of the
component. -/
theorem shows_conditional {e : Extra} {cs : Forest Tag} (hplace : Suits place c)
    (h : a.Reaches trail place) (branches : Forest.AreBranches c cs) :
    Forest.shows holds (if a.leadsNode place ⟨.conditional, e, cs⟩ then
        [⟨.conditional, e, Forest.joinBranches (a.excerptBranches place cs)⟩] else []) =
      ((Choice.ofComponent a holds).pick trail cs).flatMap
        (fun b => Forest.shows holds (a.excerpt place b.children)) := by
  have speaking : List.filter (a.speaks trail) cs =
      List.filter (a.touchesNode (place != .outside)) cs := by
    refine List.filter_congr fun b hb => ?_
    rw [speaks_of_areBranches branches hb, h.owned]
  have each := fun b hb => (Forest.forall_branch_of_areBranches branches b hb).1
  have touching := excerptBranches_eq (a := a) hplace branches
  have excerpts := (fits_excerpt (a := a) hplace).2 branches
  show _ = (Forest.chosenRun holds (List.filter (a.speaks trail) cs)).flatMap _
  rw [speaking]
  cases leading : a.leadsNode place ⟨.conditional, e, cs⟩ with
  | true =>
    have joined : Forest.AreBranches (a.standing place c)
        (Forest.joinBranches (a.excerptBranches place cs)) :=
      Forest.areBranches_joinBranches trivial excerpts
    have among := (Forest.chosen_sublist holds
      (Forest.joinBranches (a.excerptBranches place cs))).subset
    rw [if_pos rfl, Forest.shows_cons, if_pos rfl, Forest.shows_nil, List.append_nil,
      Forest.shows_branches (fun b hb =>
        (Forest.forall_branch_of_areBranches joined b (among hb)).1),
      Forest.chosen_joinBranches excerpts, touching,
      Forest.chosenRun_map (f := fun b => ⟨b.data, b.extra, a.excerpt place b.children⟩)
        (fun b hb => each b (List.mem_of_mem_filter hb)) (fun _ => rfl),
      List.flatMap_map, Forest.shows_flatMap]
    rfl
  | false =>
    rw [if_neg Bool.false_ne_true, Forest.shows_nil, eq_comm, List.flatMap_eq_nil_iff]
    intro b hb
    have among := ((Forest.chosenRun_sublist holds _).trans List.filter_sublist).subset hb
    rw [excerpt_eq_nil_of_not_leads (not_leads_of_conditional branches leading b among),
      Forest.shows_nil]

/-- An excerpt shows what is visible of the field, each conditional taken for the branches that
speak of the component. -/
theorem shows_excerpt (hplace : Suits place c) (h : a.Reaches trail place) :
    (Forest.Fits c t → Forest.shows holds (a.excerpt place t) =
      Forest.visible a.covers (.ofComponent a holds) trail t) ∧
    (Forest.AreBranches c t → ∀ b ∈ t, Forest.shows holds (a.excerpt place b.children) =
      b.visible a.covers (.ofComponent a holds) trail) := by
  induction t using Forest.induction generalizing c place trail with
  | nil => exact ⟨fun _ => by simp [excerpt, Forest.visible], fun _ => by simp⟩
  | cons d e cs rest hcs hrest =>
    refine ⟨fun fits => ?_, fun branches => ?_⟩
    · rw [excerpt, Forest.shows_append, (hrest hplace h).1 fits.2, Forest.visible]
      refine congrArg (· ++ _) ?_
      rcases hnext : a.next? place d with _ | after
      · rw [visible_of_marksIn_nil (marksIn_stopped h fits.1 hnext), excerptNode, hnext]
        exact Forest.shows_nil
      obtain ⟨stands, below⟩ := fits.1
      rw [excerptNode, hnext, Node.visible]
      by_cases conditional : d = .conditional
      · subst conditional
        rw [if_pos rfl] at below
        have inside := (hcs hplace (h.kept (t := .conditional) rfl)).2 below.2
        simp only [if_true, shows_conditional hplace h below.2, Tag.characters, ite_self,
          List.nil_append, Forest.visible_eq_flatMap]
        exact List.flatMap_congr fun b hb =>
          inside b (((Choice.ofComponent a holds).sublist trail cs).subset hb)
      rw [if_neg conditional] at below
      simp only [conditional, if_false]
      by_cases within : place = .within
      · subst within
        have kept := isKept_of_suits hplace stands
        have covers : a.covers (trail ++ [d]) = true := by
          rw [covers_kept trail kept, h.covers]
          rfl
        have suits : Suits .within (some d) :=
          fun _ => ⟨d, rfl, .inr (inline_of_suits hplace stands conditional)⟩
        rw [if_pos rfl, Forest.shows_cons, if_neg conditional, (hcs suits (h.kept kept)).1 below,
          covers]
        simp
      rw [if_neg within]
      cases entity : d.entity? with
      | none =>
        obtain ⟨-, rfl⟩ := next?_of_standsIn within stands conditional entity hnext
        obtain rfl := eq_field_of_within within hnext
        have owned : place = .owned := by
          cases place with
          | owned => rfl
          | within => exact absurd rfl within
          | outside => simp [next?] at hnext
        subst owned
        rw [(hcs (fun _ => ⟨_, rfl, .inl rfl⟩) h.field).1 below]
        simp [Tag.characters]
      | some x =>
        obtain rfl : d = .entity x := by
          cases d <;> simp_all [Tag.entity?]
        rw [next?_entity within rfl] at hnext
        have reach := h.entity within x
        rw [Option.some.inj hnext] at reach
        have outside : after ≠ .within := by
          rw [← Option.some.inj hnext]
          split <;> simp
        rw [(hcs (fun inside => absurd inside outside) reach).1 below]
        simp [Tag.characters]
    · obtain ⟨own, below, beside⟩ := branches
      refine List.forall_mem_cons.2 ⟨?_, (hrest hplace h).2 beside⟩
      have kept := isKept_of_isChain (isChain_of_branch own)
      rw [visible_of_branch own]
      exact (hcs hplace (h.kept kept)).1 below

/-- A field shows what is visible of it in the content. -/
theorem shows_content (h : Forest.Fits none t) :
    Forest.shows holds (a.content t) = Forest.visible a.covers (.ofComponent a holds) [] t := by
  have reach : a.Reaches [] .outside := ⟨rfl, rfl, rfl⟩
  have suits : Suits .outside none := fun within => absurd within (by simp)
  rw [content, ComponentField.finish, Forest.shows_stripInherited,
    Forest.shows_joinText (fits_excerpt_top a h), (shows_excerpt suits reach).1 h]

/-! ### Documents -/

variable {above above' : List Tag}

/-- Two trails cover the same below them, and the same component owns what is below them. -/
structure Agrees (a : Address) (above above' : List Tag) : Prop where
  covers : a.Alike above above'
  owned (more : List Tag) : a.isOwned (above ++ more) = a.isOwned (above' ++ more)

theorem Agrees.below (h : a.Agrees above above') (d : Tag) :
    a.Agrees (above ++ [d]) (above' ++ [d]) where
  covers := h.covers.below d
  owned more := by
    rw [List.append_assoc, List.append_assoc]
    exact h.owned ([d] ++ more)

theorem Agrees.skip (h : a.Agrees above above') {d : Tag} (hd : isDeclaration d = false)
    (entity : d.entity? = none) (field : d.field? = none) : a.Agrees (above ++ [d]) above' where
  covers := h.covers.skip hd entity field
  owned more := by
    rw [← h.owned more]
    simp [isOwned, entity]

def lifted (b : Bool) (n : Node Tag) : Node Tag :=
  ⟨n.data, { n.extra with inherited := b || n.extra.inherited },
    Forest.liftInherited (b || n.extra.inherited) n.children⟩

theorem liftInherited_of_ne {n : Node Tag} (plain : n.data ≠ .inherited) (b : Bool) :
    n.liftInherited b = [lifted b n] := by
  rcases n with ⟨d, e, cs⟩
  rw [Node.liftInherited, if_neg plain]
  rfl

theorem liftInherited_branches (branches : ∀ b ∈ t, b.data.category = .branch) (b : Bool) :
    Forest.liftInherited b t = List.map (lifted b) t := by
  induction t with
  | nil => rfl
  | cons n t ih =>
    obtain ⟨own, beside⟩ := List.forall_mem_cons.1 branches
    have plain : n.data ≠ .inherited := by
      intro h
      simp [h, Tag.category] at own
    rw [Forest.liftInherited, liftInherited_of_ne plain, ih beside]
    rfl

theorem speaks_lifted (h : a.Agrees above above') {n : Node Tag} (plain : n.data ≠ .inherited)
    (b : Bool) : a.speaks above' (lifted b n) = a.speaks above n := by
  have owned : a.isOwned above = a.isOwned above' := by simpa using h.owned []
  have once : n.liftInherited false = Forest.liftInherited false [n] := by
    simp [Forest.liftInherited]
  have twice : (lifted b n).liftInherited false =
      Forest.liftInherited false (Forest.liftInherited b [n]) := by
    simp [Forest.liftInherited, liftInherited_of_ne plain]
  rw [speaks, speaks, owned, once, twice, ← touches_stripInherited,
    Forest.stripInherited_liftInherited false b false, touches_stripInherited]

theorem branches_of_grammarFault? {s : Option Setting} {depth : Nat}
    (h : Forest.grammarFault? (some (Setting.below s .conditional)) depth t = none) :
    ∀ b ∈ t, b.data.category = .branch := by
  intro b hb
  have own := Forest.grammarFault?_of_mem h hb
  rcases b with ⟨d, e, cs⟩
  rw [Node.grammarFault?, Option.or_eq_none_iff] at own
  have allowed := (Tag.fault?_none own.1).2 _ rfl
  have conditional : (Setting.below s .conditional).parent = .conditional := by
    cases s <;> rfl
  rw [conditional] at allowed
  simpa [Tag.allowsChild] using allowed

theorem visible_append (t u : Forest Tag) : Forest.visible counts choice trail (t ++ u) =
    Forest.visible counts choice trail t ++ Forest.visible counts choice trail u := by
  simp [Forest.visible_eq_flatMap]

theorem visible_liftInherited {b : Bool}
    (each : ∀ n ∈ t, Forest.visible counts choice above' (n.liftInherited b) =
      n.visible counts choice above) :
    Forest.visible counts choice above' (Forest.liftInherited b t) =
      Forest.visible counts choice above t := by
  induction t with
  | nil => rw [Forest.liftInherited, Forest.visible, Forest.visible]
  | cons n t ih =>
    obtain ⟨own, beside⟩ := List.forall_mem_cons.1 each
    rw [Forest.liftInherited, visible_append, own, ih beside, Forest.visible]

/-- Dissolving the wrappers of inherited content keeps what is visible of the field. -/
theorem visible_lifted {n : Node Tag} {s : Option Setting} {depth : Nat}
    (grammar : n.grammarFault? s depth = none) (h : a.Agrees above above') (b : Bool) :
    Forest.visible a.covers (.ofComponent a holds) above' (n.liftInherited b) =
      n.visible a.covers (.ofComponent a holds) above := by
  induction n using Node.induction generalizing s depth above above' b with
  | node d e cs ih =>
    rw [Node.grammarFault?, Option.or_eq_none_iff] at grammar
    have inside := fun n hn => Forest.grammarFault?_of_mem (n := n) grammar.2 hn
    have each (b : Bool) {above above' : List Tag} (h : a.Agrees above above') :=
      visible_liftInherited (b := b) fun n hn => ih n hn (inside n hn) h b
    by_cases inherited : d = .inherited
    · subst inherited
      rw [Node.liftInherited, if_pos rfl, each true (h.skip (d := .inherited) rfl rfl rfl),
        Node.visible]
      simp [Tag.characters]
    · have here := h.covers [d]
      rw [liftInherited_of_ne inherited, Forest.visible, Forest.visible, List.append_nil, lifted,
        Node.visible, Node.visible, here]
      refine congrArg ((if a.covers (above' ++ [d]) then d.characters else []) ++ ·) ?_
      by_cases conditional : d = .conditional
      · subst conditional
        have branches := branches_of_grammarFault? grammar.2
        have plain : ∀ n ∈ cs, n.data ≠ .inherited := by
          intro n hn inherited
          simpa [inherited, Tag.category] using branches n hn
        rw [if_pos rfl, if_pos rfl, liftInherited_branches branches]
        show Forest.visible _ _ _ (Forest.chosenRun holds (List.filter _ (List.map _ cs))) =
          Forest.visible _ _ _ (Forest.chosenRun holds (List.filter (a.speaks above) cs))
        have speaking : List.filter (a.speaks above' ∘ lifted (b || e.inherited)) cs =
            List.filter (a.speaks above) cs :=
          List.filter_congr fun n hn => speaks_lifted h (plain n hn) _
        rw [List.filter_map, speaking, Forest.chosenRun_map (f := lifted (b || e.inherited))
          (fun n hn => branches n (List.mem_of_mem_filter hn)) (fun _ => rfl),
          Forest.visible_eq_flatMap, Forest.visible_eq_flatMap, List.flatMap_map]
        refine List.flatMap_congr fun n hn => ?_
        have among : n ∈ cs := ((Forest.chosenRun_sublist holds _).trans List.filter_sublist).subset hn
        rw [← ih n among (inside n among) (h.below _) (b || e.inherited),
          liftInherited_of_ne (plain n among), Forest.visible, Forest.visible, List.append_nil]
      · rw [if_neg conditional, if_neg conditional]
        exact each _ (h.below d)

theorem visible_rootContent {n : Node Tag} (container : n.data.isContainer = true)
    (grammar : n.grammarFault? none 0 = none) :
    Forest.visible a.covers (.ofComponent a holds) [] (rootContent n) =
      n.visible a.covers (.ofComponent a holds) [] := by
  have same : a.Agrees [] [] := ⟨fun _ => rfl, fun _ => rfl⟩
  rcases n with ⟨d, e, cs⟩
  cases d with
  | asset key =>
    rw [Node.grammarFault?, Option.or_eq_none_iff] at grammar
    rw [Node.visible]
    simp only [Tag.characters, ite_self, List.nil_append, reduceCtorEq, if_false]
    exact visible_liftInherited fun n hn =>
      visible_lifted (Forest.grammarFault?_of_mem grammar.2 hn)
        (same.skip (d := .asset key) rfl rfl rfl) false
  | entity x => exact visible_lifted grammar same false
  | _ => simp [Tag.isContainer] at container

/-- What is visible in the content is what is visible in the documents, one after the other. -/
theorem visible_combined {inputs : List (Forest Tag)}
    (accepted : ∀ t ∈ inputs, Forest.documentFault? t = none) :
    Forest.visible a.covers (.ofComponent a holds) [] (combined inputs) =
      inputs.flatMap (Forest.visible a.covers (.ofComponent a holds) []) := by
  have roots {t : Forest Tag} (h : Forest.documentFault? t = none) :
      Forest.visible a.covers (.ofComponent a holds) [] (t.flatMap rootContent) =
        Forest.visible a.covers (.ofComponent a holds) [] t := by
    obtain ⟨containers, grammar⟩ := Forest.documentFault?_none h
    rw [Forest.visible_eq_flatMap, Forest.visible_eq_flatMap, List.flatMap_assoc]
    refine List.flatMap_congr fun n hn => ?_
    rw [← Forest.visible_eq_flatMap]
    exact visible_rootContent (containers n hn) (Forest.grammarFault?_of_mem grammar hn)
  rw [combined, Forest.visible_eq_flatMap, List.flatMap_assoc]
  refine List.flatMap_congr fun t ht => ?_
  rw [← Forest.visible_eq_flatMap]
  exact roots (accepted t ht)

end Address

/-! ### Whole conditionals -/

mutual

/-- Of each conditional that marks something in the field all branches speak of the component, and
no two neighbours of them stand under one condition. -/
def Node.IsWhole (a : Address) (above : List Tag) : Node Tag → Prop
  | ⟨t, _, cs⟩ =>
    (t = .conditional → Forest.marksIn a (above ++ [t]) cs ≠ [] →
      (∀ b ∈ cs, a.speaks above b = true) ∧
        List.IsChain (fun m n : Node Tag => m.data.same n.data = false) cs) ∧
      Forest.IsWhole a (above ++ [t]) cs

/-- Of each conditional that marks something in the field all branches speak of the component, and
no two neighbours of them stand under one condition. -/
def Forest.IsWhole (a : Address) (above : List Tag) : Forest Tag → Prop
  | [] => True
  | n :: rest => n.IsWhole a above ∧ Forest.IsWhole a above rest

end

mutual

def Node.decidableIsWhole (a : Address) (above : List Tag) :
    (n : Node Tag) → Decidable (n.IsWhole a above)
  | ⟨t, _, cs⟩ =>
    have := Forest.decidableIsWhole a (above ++ [t]) cs
    inferInstanceAs (Decidable (_ ∧ _))

def Forest.decidableIsWhole (a : Address) (above : List Tag) :
    (t : Forest Tag) → Decidable (Forest.IsWhole a above t)
  | [] => .isTrue trivial
  | n :: rest =>
    have := n.decidableIsWhole a above
    have := Forest.decidableIsWhole a above rest
    inferInstanceAs (Decidable (_ ∧ _))

end

instance (a : Address) (above : List Tag) (t : Forest Tag) :
    Decidable (Forest.IsWhole a above t) := Forest.decidableIsWhole a above t

/-- The choice between two rooms is not whole for either of them. -/
example : ¬ Forest.IsWhole ⟨.plain .room, "hall", .description⟩ [] [roomByCondition] := by decide

namespace Address

variable {a : Address} {above : List Tag} {holds : String → Bool}

theorem isWhole_iff {t : Forest Tag} : Forest.IsWhole a above t ↔ ∀ n ∈ t, n.IsWhole a above := by
  induction t with
  | nil => simp [Forest.IsWhole]
  | cons n t ih => rw [Forest.IsWhole, ih, List.forall_mem_cons]

theorem visible_of_isWhole {n : Node Tag} (whole : n.IsWhole a above) :
    n.visible a.covers (.ofComponent a holds) above = n.visible a.covers (.plain holds) above := by
  induction n using Node.induction generalizing above with
  | node d e cs ih =>
    rw [Node.IsWhole, isWhole_iff] at whole
    obtain ⟨own, below⟩ := whole
    have each {bs : Forest Tag} (among : bs.Sublist cs) :
        Forest.visible a.covers (.ofComponent a holds) (above ++ [d]) bs =
          Forest.visible a.covers (.plain holds) (above ++ [d]) bs := by
      rw [Forest.visible_eq_flatMap, Forest.visible_eq_flatMap]
      exact List.flatMap_congr fun n hn => ih n (among.subset hn) (below n (among.subset hn))
    by_cases conditional : d = .conditional
    · subst conditional
      by_cases unmarked : Forest.marksIn a (above ++ [.conditional]) cs = []
      · have none : Node.marksIn a above ⟨.conditional, e, cs⟩ = [] := by
          simp [Node.marksIn, Tag.marks, unmarked]
        rw [visible_of_marksIn_nil none, visible_of_marksIn_nil none]
      · obtain ⟨speaking, apart⟩ := own rfl unmarked
        have picked : (Choice.ofComponent a holds).pick above cs = Forest.chosen holds cs := by
          show Forest.chosenRun holds (List.filter (a.speaks above) cs) = _
          rw [List.filter_eq_self.2 speaking, Forest.chosenRun_eq_chosen apart]
        rw [Node.visible, Node.visible, if_pos rfl, picked, each (Forest.chosen_sublist holds cs)]
        rfl
    · rw [Node.visible, Node.visible, if_neg conditional, if_neg conditional,
        each (List.Sublist.refl cs)]

end Address

def Component.address (c : Component) (f : FieldKind) : Address := ⟨c.kind, c.key, f⟩

/-- Under every evaluation a field shows what is visible of it in the documents, if each
conditional is taken for the branches that speak of the component; where all conditionals are
whole it shows what the documents show. -/
theorem standardize_shows {inputs : List (Forest Tag)}
    (free : ∀ t ∈ inputs, Forest.IsEditFree t) {form : Form} (h : standardize inputs = .ok form)
    {key : String} {c : Component} (hc : form.component? key = some c) {f : FieldKind}
    (hf : c.kind.hasField f = true) (holds : String → Bool) :
    ∃ n, c.field? f = some n ∧
      Forest.shows holds [n] = inputs.flatMap
        (Forest.visible (c.address f).covers (.ofComponent (c.address f) holds) []) ∧
      ((∀ t ∈ inputs, Forest.IsWhole (c.address f) [] t) → Forest.shows holds [n] =
        inputs.flatMap (Forest.visible (c.address f).covers (.plain holds) [])) := by
  obtain ⟨accepted, fits⟩ := fits_of_standardize free h
  obtain ⟨-, contents⟩ := standardize_holdsContent free h key c hc
  have shown : Forest.shows holds [.branch (.field f) ((c.address f).content (combined inputs))] =
      inputs.flatMap
        (Forest.visible (c.address f).covers (.ofComponent (c.address f) holds) []) := by
    rw [← Address.visible_combined accepted, ← Address.shows_content fits, Node.branch,
      Forest.shows_cons]
    simp [Tag.characters]
  refine ⟨_, contents.field? hf, shown, fun whole => shown.trans ?_⟩
  refine List.flatMap_congr fun t ht => ?_
  rw [Forest.visible_eq_flatMap, Forest.visible_eq_flatMap]
  exact List.flatMap_congr fun n hn =>
    Address.visible_of_isWhole (Address.isWhole_iff.1 (whole t ht) n hn)

theorem standardize_shows_squareByNight :
    ∃ form c n, standardize squareByNight = .ok form ∧ form.component? "square" = some c ∧
      c.field? .description = some n ∧
      Forest.shows (fun s => s == "night") [n] = "You see nobody".toList ∧
      Forest.shows (fun _ => false) [n] = "You see a well".toList := by
  have free : ∀ t ∈ squareByNight, Forest.IsEditFree t := by decide
  have found : ((standardize squareByNight).toOption.bind (·.component? "square")).map
      (fun c => (c.kind, c.key)) = some (.plain .room, "square") := by
    cbv
  cases h : standardize squareByNight with
  | error e => simp [h, Except.toOption] at found
  | ok form =>
    cases hc : form.component? "square" with
    | none => simp [h, hc, Except.toOption] at found
    | some c =>
      obtain ⟨hkind, hkey⟩ : c.kind = .plain .room ∧ c.key = "square" := by
        simpa [h, hc, Except.toOption] using found
      have address : c.address .description = ⟨.plain .room, "square", .description⟩ := by
        rw [Component.address, hkind, hkey]
      have whole : ∀ t ∈ squareByNight, Forest.IsWhole (c.address .description) [] t := by
        rw [address]
        decide
      have field (holds : String → Bool) := standardize_shows (f := .description) free h hc
        (by rw [hkind]; rfl) holds
      obtain ⟨n, hn, -, night⟩ := field (fun s => s == "night")
      obtain ⟨n', hn', -, day⟩ := field (fun _ => false)
      obtain rfl := Option.some.inj (hn.symm.trans hn')
      refine ⟨form, c, n, rfl, hc, hn, ?_, ?_⟩
      · rw [night whole, address]
        cbv
      · rw [day whole, address]
        cbv

end WorldMarkup
