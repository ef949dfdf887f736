import WorldMarkup.Proofs.Form.Assembly

/-!
What a reader meets in a field: characters, spaces, line breaks and links in document order. Main
statement: the marks of an excerpt are those of the document whose nodes lie in the field.
-/

set_option autoImplicit false
set_option relaxedAutoImplicit false

namespace WorldMarkup

/-- What a reader meets in running content. -/
inductive Mark
  | char (c : Char)
  | space
  | lineBreak
  | link (target : String)
  deriving DecidableEq

/-- The marks of a single node, what it holds left aside. -/
def Tag.marks : Tag → List Mark
  | .text value => value.toList.map .char
  | .space => [.space]
  | .lineBreak => [.lineBreak]
  | .link target => [.link target]
  | _ => []

def Forest.marks (t : Forest Tag) : List Mark :=
  (Forest.preorder t).flatMap (fun x => x.1.marks)

/-- Whether a node, told by the tags from its root down to it, lies in the field: outside of
imports and exports, the component the nearest entity above, a node of the field on the way. -/
def Address.covers (a : Address) (trail : List Tag) : Bool :=
  trail.all (fun t => !Standardize.isDeclaration t) &&
    ((trail.filterMap Tag.entity?).getLast?.any
      (fun e => decide (e.kind = a.kind ∧ e.key = a.key)) &&
    trail.any (fun t => t.field? == some a.field))

mutual

/-- The marks of a tree whose nodes lie in the field; `above` leads to the tree. -/
def Node.marksIn (a : Address) (above : List Tag) : Node Tag → List Mark
  | ⟨t, _, cs⟩ =>
    (if a.covers (above ++ [t]) then t.marks else []) ++ Forest.marksIn a (above ++ [t]) cs

/-- The marks of a forest whose nodes lie in the field. -/
def Forest.marksIn (a : Address) (above : List Tag) : Forest Tag → List Mark
  | [] => []
  | n :: rest => n.marksIn a above ++ Forest.marksIn a above rest

end

mutual

def Node.TextsEnd : Node Tag → Prop
  | ⟨t, _, cs⟩ => (t.isText = true → cs = []) ∧ Forest.TextsEnd cs

def Forest.TextsEnd : Forest Tag → Prop
  | [] => True
  | n :: rest => n.TextsEnd ∧ Forest.TextsEnd rest

end

namespace Forest

@[simp] theorem marks_nil : Forest.marks [] = [] := rfl

theorem marks_append (t u : Forest Tag) :
    Forest.marks (t ++ u) = Forest.marks t ++ Forest.marks u := by
  simp [Forest.marks, preorder_append]

theorem marks_cons (t : Tag) (e : Extra) (cs rest : Forest Tag) :
    Forest.marks (⟨t, e, cs⟩ :: rest) = t.marks ++ Forest.marks cs ++ Forest.marks rest := by
  simp [Forest.marks, Forest.preorder, Node.preorder]

theorem marks_node (n : Node Tag) (rest : Forest Tag) :
    Forest.marks (n :: rest) = n.data.marks ++ Forest.marks n.children ++ Forest.marks rest := by
  cases n
  exact marks_cons _ _ _ _

theorem marks_stripInherited (t : Forest Tag) :
    Forest.marks (Forest.stripInherited t) = Forest.marks t := by
  induction t using Forest.induction with
  | nil => rfl
  | cons t e cs rest hcs hrest =>
    simp only [Forest.stripInherited, Node.stripInherited, marks_cons, hcs, hrest]

theorem textsEnd_of_fits {t : Forest Tag} {c : Option Tag} :
    (Forest.Fits c t → TextsEnd t) ∧ (Forest.AreBranches c t → TextsEnd t) := by
  induction t using Forest.induction generalizing c with
  | nil => exact ⟨fun _ => trivial, fun _ => trivial⟩
  | cons t e cs rest hcs hrest =>
    refine ⟨fun h => ?_, fun h => ?_⟩
    · obtain ⟨⟨-, hbelow⟩, hbeside⟩ := h
      refine ⟨⟨fun ht => ?_, ?_⟩, hrest.1 hbeside⟩
      · have hcond : t ≠ .conditional := by
          rintro rfl
          simp [Tag.isText, Tag.text?] at ht
        rw [if_neg hcond] at hbelow
        cases cs with
        | nil => rfl
        | cons n cs =>
          have hn := hbelow.1
          cases n
          cases t <;> simp [Tag.isText, Tag.text?] at ht
          simp [Node.Fits, Tag.standsIn, Tag.allows] at hn
      · split at hbelow
        · exact hcs.2 hbelow.2
        · exact hcs.1 hbelow
    · obtain ⟨hbranch, hbelow, hbeside⟩ := h
      refine ⟨⟨fun ht => ?_, hcs.1 hbelow⟩, hrest.2 hbeside⟩
      cases t <;> simp_all [Tag.category, Tag.isText, Tag.text?]

theorem joinTextAfter_cons {t : Tag} (ht : t.isText = false) (held : Option (Node Tag))
    (e : Extra) (cs rest : Forest Tag) :
    Forest.joinTextAfter held (⟨t, e, cs⟩ :: rest) =
      held.toList ++ Forest.joinTextAfter (some ⟨t, e, Forest.joinTextAfter none cs⟩) rest := by
  cases t <;> first | rfl | simp [Tag.isText, Tag.text?] at ht

theorem joinTextAfter_nil (held : Option (Node Tag)) :
    Forest.joinTextAfter held [] = held.toList := by
  rw [Forest.joinTextAfter]

theorem heldApart_or (held : Option (Node Tag)) :
    (∀ n ∈ held, n.data.isText = false) ∨ ∃ before e cs, held = some ⟨.text before, e, cs⟩ := by
  rcases held with _ | ⟨d, e, cs⟩
  · exact .inl (by simp)
  · cases text : d.isText with
    | false => exact .inl (by simpa using text)
    | true =>
      obtain ⟨before, rfl⟩ := Tag.eq_text_of_isText text
      exact .inr ⟨before, e, cs, rfl⟩

theorem joinTextAfter_empty {e : Extra} {t : Forest Tag} (held : Option (Node Tag)) :
    joinTextAfter held (⟨.text "", e, []⟩ :: t) = joinTextAfter held t := by
  simp [joinTextAfter]

theorem joinTextAfter_apart {value : String} (filled : value ≠ "") {e : Extra} {t : Forest Tag}
    {held : Option (Node Tag)} (apart : ∀ n ∈ held, n.data.isText = false) :
    joinTextAfter held (⟨.text value, e, []⟩ :: t) =
      held.toList ++ joinTextAfter (some ⟨.text value, e, []⟩) t := by
  have filled : value.isEmpty = false := by simpa using filled
  rcases held with _ | ⟨d, e', cs'⟩
  · simp [joinTextAfter, filled]
  · have apart : d.isText = false := apart _ rfl
    cases d <;> first | simp [Tag.isText, Tag.text?] at apart; done | simp [joinTextAfter, filled]

theorem joinTextAfter_run {before value : String} {e e' : Extra} {cs t : Forest Tag} :
    joinTextAfter (some ⟨.text before, e', cs⟩) (⟨.text value, e, []⟩ :: t) =
      joinTextAfter (some ⟨.text (before ++ value), e', cs⟩) t := by
  by_cases empty : value = ""
  · subst empty
    rw [joinTextAfter_empty, String.append_empty]
  · have filled : value.isEmpty = false := by simpa using empty
    simp [joinTextAfter, filled]

theorem joinTextAfter_text (held : Option (Node Tag)) (value : String) (e : Extra)
    (rest : Forest Tag) :
    (value = "" ∧ Forest.joinTextAfter held (⟨.text value, e, []⟩ :: rest) =
      Forest.joinTextAfter held rest) ∨
    (∃ before e' cs', held = some ⟨.text before, e', cs'⟩ ∧
      Forest.joinTextAfter held (⟨.text value, e, []⟩ :: rest) =
        Forest.joinTextAfter (some ⟨.text (before ++ value), e', cs'⟩) rest) ∨
    Forest.joinTextAfter held (⟨.text value, e, []⟩ :: rest) =
      held.toList ++ Forest.joinTextAfter (some ⟨.text value, e, []⟩) rest := by
  by_cases empty : value = ""
  · subst empty
    exact .inl ⟨rfl, joinTextAfter_empty held⟩
  · rcases heldApart_or held with apart | ⟨before, e', cs', rfl⟩
    · exact .inr (.inr (joinTextAfter_apart empty apart))
    · exact .inr (.inl ⟨before, e', cs', rfl, joinTextAfter_run⟩)

theorem flatMap_joinTextAfter {β : Type} {f : Tag × Extra → List β} {g : Char → β}
    (texts : ∀ value e, f (.text value, e) = value.toList.map g) {t : Forest Tag} (h : TextsEnd t)
    (held : Option (Node Tag)) (hheld : ∀ n ∈ held, n.data.isText = true → n.children = []) :
    (Forest.preorder (Forest.joinTextAfter held t)).flatMap f =
      (Forest.preorder held.toList).flatMap f ++ (Forest.preorder t).flatMap f := by
  induction t using Forest.induction generalizing held with
  | nil => simp [joinTextAfter_nil, Forest.preorder]
  | cons d e cs rest hcs hrest =>
    obtain ⟨⟨own, inside⟩, beside⟩ := h
    have behind (n : Node Tag) (hn : n.data.isText = true → n.children = []) :=
      hrest beside (some n) (by simpa using hn)
    cases text : d.isText with
    | false =>
      have below := hcs inside none (by simp)
      rw [joinTextAfter_cons text, preorder_append, List.flatMap_append,
        behind _ (by simp [text]), Option.toList_some, preorder_cons, List.flatMap_cons,
        List.flatMap_append, below, preorder_cons]
      simp [Forest.preorder]
    | true =>
      obtain rfl : cs = [] := own text
      obtain ⟨value, rfl⟩ := Tag.eq_text_of_isText text
      rw [preorder_cons, List.flatMap_cons, texts]
      rcases joinTextAfter_text held value e rest with ⟨rfl, hjoin⟩ | ⟨before, e', cs', rfl, hjoin⟩ |
        hjoin
      · rw [hjoin, hrest beside held hheld]
        simp [Forest.preorder]
      · obtain rfl : cs' = [] := hheld _ rfl rfl
        rw [hjoin, behind _ (by simp)]
        simp [Forest.preorder, Node.preorder, texts, String.toList_append]
      · rw [hjoin, preorder_append, List.flatMap_append, behind _ (by simp)]
        simp [Forest.preorder, Node.preorder, texts]

/-- Joining texts keeps the marks. -/
theorem marks_joinText {t : Forest Tag} (h : TextsEnd t) :
    Forest.marks (Forest.joinText t) = Forest.marks t :=
  flatMap_joinTextAfter (g := .char) (fun _ _ => rfl) h none (by simp)

theorem marks_of_branch {t : Tag} (h : t.category = .branch) : t.marks = [] := by
  cases t <;> simp_all [Tag.category, Tag.marks]

/-- Joining branches keeps the marks. -/
theorem marks_joinBranches {c : Option Tag} {done bs : Forest Tag}
    (hdone : Forest.AreBranches c done) (h : Forest.AreBranches c bs) :
    Forest.marks (bs.foldl Forest.joinBranch done) = Forest.marks done ++ Forest.marks bs := by
  induction bs generalizing done with
  | nil => simp
  | cons b bs ih =>
    obtain ⟨hb, hbelow, hbs⟩ := areBranches_node.1 h
    have hone : Forest.AreBranches c [b] := areBranches_node.2 ⟨hb, hbelow, trivial⟩
    have hjoined := areBranches_joinBranches hdone hone
    rw [List.foldl_cons, List.foldl_nil] at hjoined
    rw [List.foldl_cons, ih hjoined hbs, marks_node b]
    rcases joinBranch_cases done b with hjoin | ⟨before, last, rfl, -, hjoin⟩
    · rw [hjoin, marks_append, marks_node b]
      simp
    · obtain ⟨-, hlast⟩ := areBranches_append.1 hdone
      obtain ⟨hl, -, -⟩ := areBranches_node.1 hlast
      have hdata : (last.absorb b).data.marks = [] := by
        rcases absorb_data last b with h | h
        · rw [h, marks_of_branch hl]
        · rw [h, marks_of_branch hb]
      rw [hjoin, marks_append, marks_append, marks_node (last.absorb b), marks_node last, hdata,
        absorb_children, marks_append, marks_of_branch hl, marks_of_branch hb]
      simp

end Forest

namespace Address

variable {a : Address}

/-- The nearest entity on the way, if any, is not the component. -/
def isOwned (a : Address) (trail : List Tag) : Bool :=
  (trail.filterMap Tag.entity?).getLast?.any (fun e => decide (e.kind = a.kind ∧ e.key = a.key))

/-- A walk down a trail has come to a place. -/
structure Reaches (a : Address) (trail : List Tag) (place : Place) : Prop where
  content : trail.all (fun t => !Standardize.isDeclaration t) = true
  owned : a.isOwned trail = (place != .outside)
  entered : trail.any (fun t => t.field? == some a.field) = decide (place = .within)

theorem covers_eq (trail : List Tag) : a.covers trail =
    (trail.all (fun t => !Standardize.isDeclaration t) &&
      (a.isOwned trail && trail.any (fun t => t.field? == some a.field))) := rfl

theorem Reaches.covers {trail : List Tag} {place : Place} (h : a.Reaches trail place) :
    a.covers trail = decide (place = .within) := by
  rw [covers_eq, h.content, h.owned, h.entered]
  cases place <;> rfl

theorem isOwned_append (trail : List Tag) {t : Tag} (ht : t.entity? = none) :
    a.isOwned (trail ++ [t]) = a.isOwned trail := by
  simp [isOwned, ht]

theorem isOwned_entity (trail : List Tag) (e : Entity) :
    a.isOwned (trail ++ [.entity e]) = a.isTarget (.entity e) := by
  simp [isOwned, Tag.entity?, isTarget, Tag.isEntityOf]

theorem Reaches.kept {trail : List Tag} {place : Place} (h : a.Reaches trail place) {t : Tag}
    (ht : t.isKept = true) : a.Reaches (trail ++ [t]) place where
  content := by simp [h.content, isDeclaration_of_isKept ht]
  owned := by rw [isOwned_append trail (entity?_of_isKept ht), h.owned]
  entered := by simp [h.entered, field?_of_isKept ht]

theorem Reaches.entity {trail : List Tag} {place : Place} (h : a.Reaches trail place)
    (hp : place ≠ .within) (e : Entity) :
    a.Reaches (trail ++ [.entity e]) (if a.isTarget (.entity e) then .owned else .outside) where
  content := by
    rw [List.all_append, h.content]
    rfl
  owned := by
    rw [isOwned_entity]
    split <;> simp_all
  entered := by
    have hnone := h.entered
    rw [decide_eq_false hp] at hnone
    rw [List.any_append, hnone]
    split <;> simp [Tag.field?]

theorem Reaches.field {trail : List Tag} (h : a.Reaches trail .owned) :
    a.Reaches (trail ++ [.field a.field]) .within where
  content := by
    rw [List.all_append, h.content]
    rfl
  owned := by
    rw [isOwned_append trail rfl, h.owned]
    rfl
  entered := by simp [Tag.field?]

/-! ### The marks of an excerpt -/

theorem covers_kept (trail : List Tag) {t : Tag} (ht : t.isKept = true) :
    a.covers (trail ++ [t]) = a.covers trail := by
  rw [covers_eq, covers_eq, isOwned_append trail (entity?_of_isKept ht)]
  simp [isDeclaration_of_isKept ht, field?_of_isKept ht]

theorem isKept_of_suits {c : Option Tag} {t : Tag} (hc : Suits .within c)
    (hst : t.standsIn c = true) : t.isKept = true := by
  by_cases hcond : t = .conditional
  · rw [hcond]
    rfl
  · simp [Tag.isKept, inline_of_suits hc hst hcond]

theorem marksIn_running {t : Forest Tag} {c : Option Tag} (hc : Suits .within c)
    (trail : List Tag) :
    (Forest.Fits c t →
      Forest.marksIn a trail t = if a.covers trail then Forest.marks t else []) ∧
    (Forest.AreBranches c t →
      Forest.marksIn a trail t = if a.covers trail then Forest.marks t else []) := by
  induction t using Forest.induction generalizing c trail with
  | nil => simp [Forest.marksIn]
  | cons t e cs rest hcs hrest =>
    refine ⟨fun h => ?_, fun h => ?_⟩
    · obtain ⟨⟨hst, hbelow⟩, hbeside⟩ := h
      have hkept := isKept_of_suits hc hst
      have hinner : Forest.marksIn a (trail ++ [t]) cs =
          if a.covers (trail ++ [t]) then Forest.marks cs else [] := by
        by_cases hcond : t = .conditional
        · rw [if_pos hcond] at hbelow
          exact (hcs hc _).2 hbelow.2
        · rw [if_neg hcond] at hbelow
          exact (hcs (fun _ => ⟨t, rfl, .inr (inline_of_suits hc hst hcond)⟩) _).1 hbelow
      rw [Forest.marksIn, Node.marksIn, hinner, (hrest hc _).1 hbeside, covers_kept trail hkept,
        Forest.marks_cons]
      split <;> simp
    · obtain ⟨hbranch, hbelow, hbeside⟩ := h
      have hkept : t.isKept = true := isKept_of_isChain (isChain_of_branch hbranch)
      rw [Forest.marksIn, Node.marksIn, (hcs hc _).1 hbelow, (hrest hc _).2 hbeside,
        covers_kept trail hkept, Forest.marks_cons]
      split <;> simp

theorem marksIn_declared {trail : List Tag}
    (h : trail.all (fun t => !Standardize.isDeclaration t) = false) (t : Forest Tag) :
    Forest.marksIn a trail t = [] := by
  induction t using Forest.induction generalizing trail with
  | nil => rfl
  | cons t e cs rest hcs hrest =>
    have hmore : (trail ++ [t]).all (fun t => !Standardize.isDeclaration t) = false := by
      rw [List.all_append, h]
      rfl
    have hcovers : a.covers (trail ++ [t]) = false := by rw [covers_eq, hmore, Bool.false_and]
    rw [Forest.marksIn, Node.marksIn, hcs hmore, hrest h, hcovers]
    rfl

theorem listItem_of_stopped {place : Place} {c : Option Tag} {t : Tag}
    (hst : t.standsIn c = true) (hnext : a.next? place t = none) (hcond : t ≠ .conditional)
    (hd : Standardize.isDeclaration t = false) (hfield : t.category ≠ .field)
    (hinline : t.category ≠ .inline) : t.category = .listItem := by
  have hp : place ≠ .within := by
    rintro rfl
    simp [next?_within] at hnext
  have hentity : t.entity? = none := by
    cases hent : t.entity? with
    | none => rfl
    | some e =>
      rw [next?_entity hp (by simp [hent])] at hnext
      simp at hnext
  have hchain : t.isChain = false := by
    cases hchain : t.isChain with
    | false => rfl
    | true => simp [next?_chain place hchain] at hnext
  cases c with
  | none => cases t <;> simp_all [Tag.standsIn, Tag.entity?, Standardize.isDeclaration]
  | some x =>
    have hallows : x.allows t = true := by
      simp only [Tag.standsIn, Bool.and_eq_true] at hst
      exact hst.2
    cases t <;> simp_all [Tag.category, Tag.entity?, Standardize.isDeclaration, Tag.isChain,
      Tag.standsIn] <;> cases x <;>
      simp [Tag.allows, Tag.inEntity, Tag.isInlineContent, Tag.isText, Tag.text?, Tag.entity?]
        at hallows

/-- A tree that a walk cannot pass has no node in the field. -/
theorem marksIn_stopped {place : Place} {trail : List Tag} (h : a.Reaches trail place)
    {c : Option Tag} {t : Tag} {e : Extra} {cs : Forest Tag} (hfits : Node.Fits c ⟨t, e, cs⟩)
    (hnext : a.next? place t = none) : Node.marksIn a trail ⟨t, e, cs⟩ = [] := by
  obtain ⟨hst, hbelow⟩ := hfits
  have hp : place ≠ .within := by
    rintro rfl
    simp [next?_within] at hnext
  have hcond : t ≠ .conditional := by
    rintro rfl
    simp [next?_chain place (t := .conditional) rfl] at hnext
  rw [if_neg hcond] at hbelow
  rw [Node.marksIn]
  cases hd : Standardize.isDeclaration t with
  | true =>
    have hmore : (trail ++ [t]).all (fun t => !Standardize.isDeclaration t) = false := by
      simp [hd]
    rw [marksIn_declared hmore, covers_eq, hmore]
    rfl
  | false =>
    by_cases hfield : t.category = .field
    · have hcovers : a.covers (trail ++ [t]) = false := by
        obtain ⟨g, rfl⟩ : ∃ g, t = .field g := by
          cases t <;> simp_all [Tag.category]
        have hentered := h.entered
        rw [decide_eq_false hp] at hentered
        rw [covers_eq, isOwned_append trail rfl, h.owned, List.any_append, hentered]
        cases place with
        | within => exact absurd rfl hp
        | outside => simp
        | owned =>
          have hg : g ≠ a.field := by
            rintro rfl
            simp [next?] at hnext
          simp [Tag.field?, hg]
      rw [hcovers, (marksIn_running (fun _ => ⟨t, rfl, .inl hfield⟩) _).1 hbelow, hcovers]
      rfl
    · by_cases hinline : t.category = .inline
      · have hcovers : a.covers (trail ++ [t]) = false := by
          rw [covers_kept trail (by simp [Tag.isKept, hinline]), h.covers, decide_eq_false hp]
        rw [hcovers, (marksIn_running (fun _ => ⟨t, rfl, .inr hinline⟩) _).1 hbelow, hcovers]
        rfl
      · have hitem := listItem_of_stopped hst hnext hcond hd hfield hinline
        have hnil : cs = [] := by
          cases cs with
          | nil => rfl
          | cons n cs =>
            have hn := hbelow.1
            cases n
            cases t <;> simp [Tag.category] at hitem <;>
              simp [Node.Fits, Tag.standsIn, Tag.allows] at hn
        have hmarks : t.marks = [] := by
          cases t <;> simp_all [Tag.category, Tag.marks]
        rw [hnil, hmarks]
        simp [Forest.marksIn]

theorem marks_excerptBranches {place : Place} {c : Option Tag} {t : Forest Tag}
    (h : Forest.AreBranches c t) :
    Forest.marks (a.excerptBranches place t) =
      Forest.marks (t.flatMap (fun b => a.excerpt place b.children)) := by
  induction t with
  | nil => rfl
  | cons n rest ih =>
    rcases n with ⟨t, e, cs⟩
    rw [excerptBranches, Forest.marks_append, ih h.2.2, List.flatMap_cons, Forest.marks_append]
    refine congrArg (· ++ _) ?_
    cases hl : a.leads place cs with
    | true => simp [Forest.marks_cons, Forest.marks_of_branch h.1]
    | false =>
      rw [excerpt_eq_nil_of_not_leads hl, if_neg Bool.false_ne_true]
      split
      · simp [Forest.marks_cons, Forest.marks_of_branch h.1]
      · rfl

/-- What is around nothing that leads to the field does not lead there, nor does any of its
branches. -/
theorem not_leads_of_conditional {place : Place} {c : Option Tag} {e : Extra} {cs : Forest Tag}
    (branches : Forest.AreBranches c cs) (h : a.leadsNode place ⟨.conditional, e, cs⟩ = false) :
    ∀ b ∈ cs, a.leads place b.children = false := by
  rw [leadsNode, next?_chain place (t := .conditional) rfl] at h
  have outside : place ≠ .within := by
    rintro rfl
    simp at h
  have none : a.leads place cs = false := by
    cases place <;> first | exact h | exact absurd rfl outside
  clear h
  induction cs with
  | nil => simp
  | cons b cs ih =>
    rcases b with ⟨d, e, inside⟩
    obtain ⟨own, -, beside⟩ := branches
    rw [leads, Bool.or_eq_false_iff, leadsNode, next?_chain place (isChain_of_branch own)] at none
    refine List.forall_mem_cons.2 ⟨?_, ih beside none.2⟩
    cases place <;> first | exact none.1 | exact absurd rfl outside

theorem marks_conditional {place : Place} {c : Option Tag} {e : Extra} {cs : Forest Tag}
    (hplace : Suits place c) (branches : Forest.AreBranches c cs) :
    Forest.marks (if a.leadsNode place ⟨.conditional, e, cs⟩ then
      [⟨.conditional, e, Forest.joinBranches (a.excerptBranches place cs)⟩] else []) =
      Forest.marks (cs.flatMap (fun b => a.excerpt place b.children)) := by
  cases leading : a.leadsNode place ⟨.conditional, e, cs⟩ with
  | true =>
    have joined : Forest.marks (Forest.joinBranches (a.excerptBranches place cs)) =
        Forest.marks (a.excerptBranches place cs) := by
      have none : Forest.AreBranches (a.standing place c) [] := trivial
      exact Forest.marks_joinBranches none ((fits_excerpt (a := a) hplace).2 branches)
    rw [if_pos rfl, Forest.marks_cons, joined, marks_excerptBranches branches]
    simp [Tag.marks]
  | false =>
    have none : cs.flatMap (fun b => a.excerpt place b.children) = [] :=
      List.flatMap_eq_nil_iff.2 fun b hb =>
        excerpt_eq_nil_of_not_leads (not_leads_of_conditional branches leading b hb)
    rw [if_neg Bool.false_ne_true, none]

/-- The marks of an excerpt are those of the nodes that lie in the field. -/
theorem marks_excerpt {t : Forest Tag} {c : Option Tag} {place : Place} {trail : List Tag}
    (hplace : Suits place c) (h : a.Reaches trail place) :
    (Forest.Fits c t → Forest.marks (a.excerpt place t) = Forest.marksIn a trail t) ∧
    (Forest.AreBranches c t →
      Forest.marks (t.flatMap (fun b => a.excerpt place b.children)) =
        Forest.marksIn a trail t) := by
  induction t using Forest.induction generalizing c place trail with
  | nil => exact ⟨fun _ => rfl, fun _ => rfl⟩
  | cons t e cs rest hcs hrest =>
    refine ⟨fun hfits => ?_, fun hfits => ?_⟩
    · rw [excerpt, Forest.marks_append, (hrest hplace h).1 hfits.2, Forest.marksIn]
      refine congrArg (· ++ _) ?_
      rcases hnext : a.next? place t with _ | below
      · rw [marksIn_stopped h hfits.1 hnext, excerptNode, hnext]
        rfl
      obtain ⟨hst, hbelow⟩ := hfits.1
      rw [excerptNode, hnext, Node.marksIn]
      by_cases hcond : t = .conditional
      · subst hcond
        rw [if_pos rfl] at hbelow
        have hinner := (hcs hplace (h.kept (t := .conditional) rfl)).2 hbelow.2
        have hshown : Forest.marks (if a.leadsNode place ⟨.conditional, e, cs⟩ then
            [⟨.conditional, e, Forest.joinBranches (a.excerptBranches place cs)⟩] else []) =
            Forest.marks (cs.flatMap (fun b => a.excerpt place b.children)) := by
          exact marks_conditional hplace hbelow.2
        simp only [if_true, hshown, hinner, Tag.marks, ite_self, List.nil_append]
      · rw [if_neg hcond] at hbelow
        simp only [hcond, if_false]
        by_cases hw : place = .within
        · subst hw
          have hinline := inline_of_suits hplace hst hcond
          have hkept : t.isKept = true := isKept_of_suits hplace hst
          have hcovers : a.covers (trail ++ [t]) = true := by
            rw [covers_kept trail hkept, h.covers]
            rfl
          have hinner := (hcs (fun _ => ⟨t, rfl, .inr hinline⟩) (h.kept hkept)).1 hbelow
          rw [if_pos rfl, Forest.marks_cons, hinner, hcovers]
          simp
        · rw [if_neg hw]
          by_cases hb : below = .within
          · subst hb
            obtain rfl := eq_field_of_within hw hnext
            have howned : place = .owned := by
              cases place with
              | owned => rfl
              | within => exact absurd rfl hw
              | outside => simp [next?] at hnext
            subst howned
            rw [(hcs (fun _ => ⟨_, rfl, .inl rfl⟩) h.field).1 hbelow]
            simp [Tag.marks]
          · cases hent : t.entity? with
            | none => exact absurd (next?_of_standsIn hw hst hcond hent hnext).2 hb
            | some ent =>
              obtain rfl : t = .entity ent := by
                cases t <;> simp_all [Tag.entity?]
              rw [next?_entity hw rfl] at hnext
              have hreach := h.entity hw ent
              rw [Option.some.inj hnext] at hreach
              have hinner := (hcs (fun hw' => absurd hw' hb) hreach).1 hbelow
              rw [hinner]
              simp [Tag.marks]
    · obtain ⟨hbranch, hbelow, hbeside⟩ := hfits
      have hkept := isKept_of_isChain (isChain_of_branch hbranch)
      rw [List.flatMap_cons, Forest.marks_append, (hcs hplace (h.kept hkept)).1 hbelow,
        (hrest hplace h).2 hbeside, Forest.marksIn, Node.marksIn, Forest.marks_of_branch hbranch]
      simp

end Address

end WorldMarkup
