import Mathlib.Data.List.Forall2
import WorldMarkup.Layout.Print
import WorldMarkup.Proofs.Layout.Wrapping

/-!
Contents of elements, put together from what their children are written as: one after another, or
on lines of their own. Main statements: both tell the children, with the dividers of branches
among them.
-/

set_option autoImplicit false
set_option relaxedAutoImplicit false

namespace WorldMarkup

open Markup
open Layout (conditionalElement openingItem)

/-- Whether the property is read as it is written, on one line. -/
def Property.IsSound (p : Property) : Prop := p.isReadable = true ∧ '\n' ∉ p.render

def Node.element : Node Tag → Element
  | ⟨.conditional, e, cs⟩ => conditionalElement e cs
  | n => .ofNode n

theorem Node.element_plain {n : Node Tag} (h : n.data ≠ .conditional) : n.element = .ofNode n := by
  obtain ⟨t, e, cs⟩ := n
  cases t with
  | conditional => exact absurd rfl h
  | _ => rfl

def Node.BodyTold (running : Bool) (n : Node Tag) (body : List Item) : Prop :=
  if n.data = .conditional then Forest.ToldAsBranches running true n.children body
  else Forest.Told (n.data.runsWithin running) true true n.children body

def Node.IsFilled (n : Node Tag) : Prop :=
  if n.data = .conditional then isBareChain n.children = false else n.children ≠ []

theorem Node.told_of_body {running : Bool} {n : Node Tag} {body : List Item}
    (filled : n.IsFilled) (h : n.BodyTold running body) :
    n.Told running (openingItem n.element false :: (body ++ [.closing n.element.name])) := by
  obtain ⟨t, e, cs⟩ := n
  by_cases conditional : t = .conditional
  · subst conditional
    exact .inr ⟨body, rfl, filled, h⟩
  · rw [Node.element_plain conditional, Node.told_plain conditional]
    rw [BodyTold, if_neg conditional] at h
    rw [IsFilled, if_neg conditional] at filled
    exact .inr ⟨body, rfl, filled, h⟩

namespace Layout

/-! ### Arrangements -/

section

variable {α β : Type}

/-- What stands where a branch begins. -/
def dividerTexts (first : Bool) (t : Tag) : List (List Char) :=
  match first, t with
  | true, .statement _ => []
  | _, .statement s => [Element.selfClosing ⟨"ElseIf", [.condition s.condition]⟩]
  | _, _ => [Element.selfClosing ⟨"Else", []⟩]

/-- Parts that come from the branches of a conditional: dividers, and what the nodes of the
branches are related to. -/
def Interleaved (divider : List Char → α) (P : Node Tag → α → Prop) (first : Bool) :
    Forest Tag → List α → Prop
  | [], xs => xs = []
  | ⟨t, _, cs⟩ :: rest, xs => ∃ body more,
    xs = (dividerTexts first t).map divider ++ (body ++ more) ∧ List.Forall₂ P cs body ∧
      Interleaved divider P false rest more

/-- Parts that come from the children of a node. -/
def Arranged (divider : List Char → α) (P : Node Tag → α → Prop) (n : Node Tag)
    (xs : List α) : Prop :=
  if n.data = .conditional then Interleaved divider P true n.children xs
  else List.Forall₂ P n.children xs

variable {m : Type → Type} [Monad m] [LawfulMonad m] {a : List Char → α} {b : List Char → β}
  {P : Node Tag → α → Prop} {Q : Node Tag → β → Prop} {f : α → m β}

theorem mapM_forall₂ (step : ∀ n x, P n x → ∃ y, f x = pure y ∧ Q n y) {cs : Forest Tag}
    {xs : List α} (h : List.Forall₂ P cs xs) :
    ∃ ys, xs.mapM f = pure ys ∧ ys.length = xs.length ∧ List.Forall₂ Q cs ys := by
  induction h with
  | nil => exact ⟨[], by simp, rfl, .nil⟩
  | cons head _ ih =>
    obtain ⟨y, hy, q⟩ := step _ _ head
    obtain ⟨ys, hys, length, qs⟩ := ih
    exact ⟨y :: ys, by simp [hy, hys], by simp [length], .cons q qs⟩

theorem mapM_interleaved (step : ∀ n x, P n x → ∃ y, f x = pure y ∧ Q n y)
    (divide : ∀ text, f (a text) = pure (b text)) {first : Bool} {cs : Forest Tag}
    {xs : List α} (h : Interleaved a P first cs xs) :
    ∃ ys, xs.mapM f = pure ys ∧ ys.length = xs.length ∧ Interleaved b Q first cs ys := by
  induction cs generalizing first xs with
  | nil =>
    obtain rfl : xs = [] := h
    exact ⟨[], by simp, rfl, rfl⟩
  | cons n rest ih =>
    obtain ⟨t, e, cs⟩ := n
    obtain ⟨body, more, rfl, children, others⟩ := h
    obtain ⟨ys, hys, length, children⟩ := mapM_forall₂ step children
    obtain ⟨zs, hzs, length', others⟩ := ih others
    have lead : ∀ ds : List (List Char), (ds.map a).mapM f = pure (ds.map b) := by
      intro ds
      induction ds with
      | nil => simp
      | cons d ds ihd => simp [divide, ihd]
    exact ⟨(dividerTexts first t).map b ++ (ys ++ zs),
      by simp [List.mapM_append, lead, hys, hzs], by simp [length, length'], ys, zs, rfl, children,
      others⟩

theorem mapM_arranged (step : ∀ n x, P n x → ∃ y, f x = pure y ∧ Q n y)
    (divide : ∀ text, f (a text) = pure (b text)) {n : Node Tag} {xs : List α}
    (h : Arranged a P n xs) :
    ∃ ys, xs.mapM f = pure ys ∧ ys.length = xs.length ∧ Arranged b Q n ys := by
  by_cases conditional : n.data = .conditional
  · simp only [Arranged, conditional, if_true] at *
    exact mapM_interleaved step divide h
  · simp only [Arranged, conditional, if_false] at *
    exact mapM_forall₂ step h

omit [Monad m] [LawfulMonad m] in
/-- A property of dividers, and of what nodes are related to, holds of all parts. -/
theorem forall_arranged {R : α → Prop} (each : ∀ n x, P n x → R x) {n : Node Tag}
    (divider : ∀ b ∈ n.children, ∀ first, ∀ text ∈ dividerTexts first b.data, R (a text))
    {xs : List α} (h : Arranged a P n xs) : ∀ x ∈ xs, R x := by
  have children : ∀ {cs : Forest Tag} {xs : List α}, List.Forall₂ P cs xs → ∀ x ∈ xs, R x := by
    intro cs xs h
    induction h with
    | nil => simp
    | cons head _ ih => simpa using ⟨each _ _ head, ih⟩
  have branches : ∀ {cs : Forest Tag},
      (∀ b ∈ cs, ∀ first, ∀ text ∈ dividerTexts first b.data, R (a text)) →
      ∀ {first : Bool} {xs : List α}, Interleaved a P first cs xs → ∀ x ∈ xs, R x := by
    intro cs
    induction cs with
    | nil =>
      rintro - first xs rfl
      simp
    | cons n rest ih =>
      intro divider first xs h
      simp only [List.mem_cons, forall_eq_or_imp] at divider
      obtain ⟨t, e, cs⟩ := n
      obtain ⟨body, more, rfl, content, others⟩ := h
      intro x hx
      rcases List.mem_append.mp hx with hx | hx
      · obtain ⟨d, hd, rfl⟩ := List.mem_map.mp hx
        exact divider.1 first d hd
      · rcases List.mem_append.mp hx with hx | hx
        · exact children content x hx
        · exact ih divider.2 others x hx
  by_cases conditional : n.data = .conditional
  · simp only [Arranged, conditional, if_true] at h
    exact branches divider h
  · simp only [Arranged, conditional, if_false] at h
    exact children h

omit [Monad m] [LawfulMonad m] in
theorem Arranged.imp {P' : Node Tag → α → Prop} (imp : ∀ n x, P n x → P' n x) {n : Node Tag}
    {xs : List α} (h : Arranged a P n xs) : Arranged a P' n xs := by
  have branches : ∀ {cs : Forest Tag} {first : Bool} {xs : List α},
      Interleaved a P first cs xs → Interleaved a P' first cs xs := by
    intro cs
    induction cs with
    | nil => exact id
    | cons n rest ih =>
      obtain ⟨t, e, cs⟩ := n
      rintro first xs ⟨body, more, rfl, content, others⟩
      exact ⟨body, more, rfl, content.imp imp, ih others⟩
  by_cases conditional : n.data = .conditional
  · simp only [Arranged, conditional, if_true] at *
    exact branches h
  · simp only [Arranged, conditional, if_false] at *
    exact h.imp imp

end

/-! ### One after another -/

/-- Whether the text says the node: a text by its escaped characters, anything else by its
items. -/
def IsLaidOut (running : Bool) (n : Node Tag) (out : List Char) : Prop :=
  match n.data with
  | .text value => out = escapeText value.toList
  | _ => ∃ is, Spells out is ∧ n.Told running is

theorem isLaidOut_iff {n : Node Tag} (text : n.data.isText = false) (running : Bool)
    (out : List Char) : IsLaidOut running n out ↔ ∃ is, Spells out is ∧ n.Told running is := by
  obtain ⟨t, e, cs⟩ := n
  cases t with
  | text value => simp [Tag.isText, Tag.text?] at text
  | _ => rfl

theorem wraps_escapeText (value : List Char) :
    ∃ run, Spells (escapeText value) (Item.ofRun run) ∧
      ∀ atEnd blank, Wraps [] atEnd blank value run := by
  induction value with
  | nil => exact ⟨[], .nil, fun _ _ => .nil⟩
  | cons c value ih =>
    obtain ⟨escaped, plain, spells⟩ := spells_escapeTextChar c
    obtain ⟨run, spells', wraps⟩ := ih
    exact ⟨(c, escaped) :: run, spells.append spells', fun atEnd _ => .keep plain (wraps atEnd _)⟩

theorem told_flat {running : Bool} {cs : Forest Tag} (writable : Forest.IsWritable running cs)
    {outs : List (List Char)} (h : List.Forall₂ (IsLaidOut running) cs outs) (fresh apart : Bool)
    (after : apart = false → cs.head?.all (fun m => !m.data.isText) = true) :
    ∃ is, Spells outs.flatten is ∧ Forest.Told running fresh apart cs is := by
  induction h generalizing fresh apart with
  | nil =>
    refine ⟨[], .nil, [], rfl, fun _ => rfl, ?_⟩
    cases running <;> simp [readRun, settleBlanks_nil]
  | @cons n out rest outs head others ih =>
    obtain ⟨t, e, cs⟩ := n
    obtain ⟨node, apartText, writable⟩ := writable
    cases text : t.isText with
    | true =>
      obtain ⟨value, rfl⟩ := Tag.eq_text_of_isText text
      obtain ⟨rfl, -⟩ := node
      have apart : apart = true := by
        cases apart with
        | true => rfl
        | false => exact absurd (after rfl) (by simp [Tag.isText, Tag.text?])
      obtain ⟨run, spells, wraps⟩ := wraps_escapeText value.toList
      obtain ⟨is, spells', told⟩ := ih writable false false
        (fun _ => apartText rfl)
      obtain rfl : out = escapeText value.toList := head
      refine ⟨_, spells.append spells', run, is, rfl, apart, ?_, told⟩
      exact congrArg some ((wraps rest.isEmpty fresh).settle rfl id)
    | false =>
      obtain ⟨ns, spells, toldNode⟩ := (isLaidOut_iff text running out).mp head
      obtain ⟨is, spells', told⟩ := ih writable false true (by simp)
      refine ⟨_, spells.append spells', (Forest.told_cons text ..).mpr
        ⟨[], ns, is, rfl, fun _ => rfl, ?_, toldNode, told⟩⟩
      cases running <;> simp [readRun, settleBlanks_nil]

theorem leadsIn_dividerTexts {t : Tag} (plain : t.isPlainBranch = true)
    (sound : ∀ p ∈ t.properties, p.IsSound) (running first : Bool) :
    ∃ lead, Spells (dividerTexts first t).flatten lead ∧ LeadsIn running first t lead := by
  have nothing : readRun running true true [] = some [] := by
    cases running <;> simp [readRun, settleBlanks_nil]
  cases t with
  | statement s =>
    cases first with
    | true => exact ⟨[], .nil, rfl⟩
    | false =>
      have ps : ∀ p ∈ [Property.condition s.condition], p.IsSound := sound
      refine ⟨[branchItem (.statement s)], ?_, rfl⟩
      have name : isName "ElseIf".toList = true := by decide
      have divider : Spells (Element.selfClosing ⟨"ElseIf", [.condition s.condition]⟩)
          [branchItem (.statement s)] :=
        spells_selfClosing ⟨name, fun p hp => (ps p hp).1, fun p hp => (ps p hp).2⟩
      simpa [dividerTexts] using divider
  | fallthrough =>
    refine ⟨[branchItem .fallthrough], ?_, ?_⟩
    · have divider : Spells (Element.selfClosing ⟨"Else", []⟩) [branchItem .fallthrough] :=
        spells_selfClosing ⟨by decide, by simp, by simp⟩
      cases first <;> simpa [dividerTexts] using divider
    · cases first with
      | true => exact ⟨[], rfl, nothing⟩
      | false => rfl
  | _ => simp [Tag.isPlainBranch] at plain

theorem told_flat_branches {running first : Bool} {cs : Forest Tag}
    (writable : Forest.AreWritableBranches running cs)
    (sound : ∀ b ∈ cs, ∀ p ∈ b.data.properties, p.IsSound) {outs : List (List Char)}
    (h : Interleaved id (IsLaidOut running) first cs outs) :
    ∃ is, Spells outs.flatten is ∧ Forest.ToldAsBranches running first cs is := by
  induction cs generalizing first outs with
  | nil =>
    obtain rfl : outs = [] := h
    exact ⟨[], .nil, rfl⟩
  | cons b rest ih =>
    obtain ⟨t, e, cs⟩ := b
    obtain ⟨plain, rfl, content, writable⟩ := writable
    simp only [List.mem_cons, forall_eq_or_imp] at sound
    obtain ⟨body, more, rfl, children, others⟩ := h
    obtain ⟨lead, spells, leads⟩ := leadsIn_dividerTexts plain sound.1 running first
    obtain ⟨is, spells', told⟩ := told_flat content children true true (by simp)
    obtain ⟨js, spells'', others⟩ := ih writable sound.2 others
    refine ⟨lead ++ (is ++ js), ?_, lead, is, js, rfl, leads, told, others⟩
    rw [List.map_id, List.flatten_append, List.flatten_append]
    exact spells.append (spells'.append spells'')

/-! ### On lines of their own -/

/-- Whether the text says the node, blanks in front. -/
def IsSpread (n : Node Tag) (out : List Char) : Prop :=
  ∃ bs out', out = bs ++ out' ∧ bs.all isLayoutBlank = true ∧
    ∃ is, Spells out' is ∧ n.Told false is

def broken (outs : List (List Char)) : List Char := outs.flatMap (fun out => '\n' :: out)

theorem between_eq (opening closing : List Char) {outs : List (List Char)} (h : outs ≠ []) :
    between opening outs closing = opening ++ (broken outs ++ ['\n']) ++ closing := by
  have lines : ∀ outs : List (List Char), outs ≠ [] → '\n' :: unlines outs = broken outs := by
    intro outs
    induction outs with
    | nil => exact fun h => absurd rfl h
    | cons out outs ih =>
      intro _
      by_cases ne : outs = []
      · subst ne
        simp [unlines, broken]
      · rw [unlines_cons ne, broken, List.flatMap_cons, ← broken, ← ih ne]
        simp
  rw [← lines outs h]
  simp [between]

theorem readRun_break (bs : List Char) (blank : bs.all isLayoutBlank = true)
    (fresh atEnd : Bool) :
    readRun false fresh atEnd (('\n' :: bs).map (fun d => (d, false))) = some [] := by
  have : (('\n' :: bs).map (fun d => (d, false))).all isSoftBlank = true :=
    all_isSoftBlank_map (by rw [List.all_cons, blank]; rfl)
  simp only [readRun, this, Bool.false_eq_true, if_false, if_true]

theorem spells_break (bs : List Char) (blank : bs.all isLayoutBlank = true) :
    Spells ('\n' :: bs) (Item.ofRun (('\n' :: bs).map (fun d => (d, false)))) :=
  spells_blanks (by rw [List.all_cons, blank]; rfl)

theorem isText_of_isWritable {n : Node Tag} (writable : n.IsWritable false) :
    n.data.isText = false := by
  obtain ⟨t, e, cs⟩ := n
  cases t with
  | text value => exact absurd writable.1 (by simp)
  | _ => rfl

theorem told_spread {cs : Forest Tag} (writable : Forest.IsWritable false cs)
    {outs : List (List Char)} (h : List.Forall₂ IsSpread cs outs) (fresh : Bool) :
    ∃ is, Spells (broken outs ++ ['\n']) is ∧ Forest.Told false fresh true cs is := by
  induction h generalizing fresh with
  | nil =>
    exact ⟨_, spells_break [] rfl, _, rfl, by simp, readRun_break [] rfl fresh true⟩
  | @cons n out rest outs head others ih =>
    obtain ⟨node, -, writable⟩ := writable
    have text := isText_of_isWritable node
    obtain ⟨t, e, cs⟩ := n
    obtain ⟨bs, out', rfl, blank, ns, spells, toldNode⟩ := head
    obtain ⟨is, spells', told⟩ := ih writable false
    refine ⟨_, ?_, (Forest.told_cons text ..).mpr
      ⟨('\n' :: bs).map (fun d => (d, false)), ns, is, rfl, by simp,
        readRun_break bs blank fresh false, toldNode, told⟩⟩
    have := (spells_break bs blank).append (spells.append spells')
    simpa [broken] using this

/-- Later branches on lines of their own: the line break in front of the first divider belongs to
the branch before. -/
theorem told_spread_branches {cs : Forest Tag}
    (writable : Forest.AreWritableBranches false cs)
    (sound : ∀ b ∈ cs, ∀ p ∈ b.data.properties, p.IsSound) {outs : List (List Char)}
    (h : Interleaved id IsSpread false cs outs) :
    ∃ text is, broken outs ++ ['\n'] = '\n' :: text ∧ Spells text is ∧
      Forest.ToldAsBranches false false cs is := by
  induction cs generalizing outs with
  | nil =>
    obtain rfl : outs = [] := h
    exact ⟨[], [], rfl, .nil, rfl⟩
  | cons b rest ih =>
    obtain ⟨t, e, cs⟩ := b
    obtain ⟨plain, rfl, content, writable⟩ := writable
    simp only [List.mem_cons, forall_eq_or_imp] at sound
    obtain ⟨body, more, rfl, children, others⟩ := h
    obtain ⟨text, js, htext, spells'', others⟩ := ih writable sound.2 others
    obtain ⟨is, spells', told⟩ := told_spread content children true
    obtain ⟨lead, spells, leads⟩ := leadsIn_dividerTexts plain sound.1 false false
    obtain ⟨divider, hd⟩ : ∃ divider, dividerTexts false t = [divider] := by
      cases t <;> exact ⟨_, rfl⟩
    rw [hd] at spells
    refine ⟨divider ++ (broken body ++ ['\n'] ++ text), lead ++ (is ++ js), ?_, ?_, lead, is, js,
      rfl, leads, told, others⟩
    · rw [hd]
      simp only [broken] at htext
      simp [broken, htext]
    · simpa using spells.append (spells'.append spells'')

theorem told_spread_first {cs : Forest Tag} (writable : Forest.AreWritableBranches false cs)
    (sound : ∀ b ∈ cs, ∀ p ∈ b.data.properties, p.IsSound) {outs : List (List Char)}
    (ne : outs ≠ []) (h : Interleaved id IsSpread true cs outs) :
    ∃ is, Spells (broken outs ++ ['\n']) is ∧ Forest.ToldAsBranches false true cs is := by
  cases cs with
  | nil => exact absurd h ne
  | cons b rest =>
    obtain ⟨t, e, cs⟩ := b
    obtain ⟨plain, rfl, content, writable⟩ := writable
    simp only [List.mem_cons, forall_eq_or_imp] at sound
    obtain ⟨body, more, rfl, children, others⟩ := h
    obtain ⟨text, js, htext, spells'', others⟩ := told_spread_branches writable sound.2 others
    obtain ⟨is, spells', told⟩ := told_spread content children true
    simp only [broken] at htext
    cases t with
    | statement s =>
      refine ⟨is ++ js, ?_, [], is, js, rfl, rfl, told, others⟩
      have := spells'.append spells''
      simpa [broken, dividerTexts, htext] using this
    | fallthrough =>
      obtain ⟨lead, spells, leads⟩ :=
        leadsIn_dividerTexts (t := .fallthrough) rfl sound.1 false false
      obtain rfl : lead = [branchItem .fallthrough] := leads
      refine ⟨_, ?_, Item.ofRun (['\n'].map (fun d => (d, false))) ++ [branchItem .fallthrough], is,
        js, rfl, ⟨_, rfl, readRun_break [] rfl true true⟩, told, others⟩
      have := ((spells_break [] rfl).append spells).append (spells'.append spells'')
      simpa [broken, dividerTexts, htext] using this
    | _ => simp [Tag.isPlainBranch] at plain

/-! ### Contents of a node -/

section

variable {running : Bool} {n : Node Tag} {outs : List (List Char)}

theorem isWritable_children (text : n.data.isText = false) (writable : n.IsWritable running) :
    n.element.name = n.data.label ∧ n.data.isElement = true ∧
      if n.data = .conditional then Forest.AreWritableBranches running n.children
      else Forest.IsWritable (n.data.runsWithin running) n.children := by
  obtain ⟨t, e, cs⟩ := n
  by_cases conditional : t = .conditional
  · subst conditional
    exact ⟨rfl, rfl, writable.2⟩
  · obtain ⟨element, -, -, inside⟩ := Node.isWritable_plain conditional text writable
    rw [Node.element_plain conditional, if_neg conditional]
    exact ⟨rfl, element, inside⟩

theorem told_empty {α : Type} {divider : List Char → α} {P : Node Tag → α → Prop}
    (h : Arranged divider P n []) : n.Told running [openingItem n.element true] := by
  obtain ⟨t, e, cs⟩ := n
  by_cases conditional : t = .conditional
  · subst conditional
    refine .inl ⟨rfl, ?_⟩
    simp only [Arranged, if_true] at h
    rcases cs with _ | ⟨⟨t, x, bs⟩, rest⟩
    · rfl
    · obtain ⟨body, more, nil, children, others⟩ := h
      simp only [List.nil_eq, List.append_eq_nil_iff, List.map_eq_nil_iff] at nil
      obtain ⟨lead, rfl, rfl⟩ := nil
      cases children
      cases t with
      | statement s =>
        rcases rest with _ | ⟨⟨t', x', bs'⟩, rest⟩
        · rfl
        · obtain ⟨body, more, nil, -⟩ := others
          simp only [List.nil_eq, List.append_eq_nil_iff, List.map_eq_nil_iff] at nil
          cases t' <;> simp [dividerTexts] at nil
      | _ => simp [dividerTexts] at lead
  · simp only [Arranged, conditional, if_false] at h
    cases h
    rw [Node.element_plain conditional, Node.told_plain conditional]
    exact .inl ⟨rfl, rfl⟩

theorem isFilled_of_arranged {α : Type} {divider : List Char → α} {P : Node Tag → α → Prop}
    {xs : List α} (h : Arranged divider P n xs) (ne : xs ≠ []) : n.IsFilled := by
  obtain ⟨t, e, cs⟩ := n
  by_cases conditional : t = .conditional
  · subst conditional
    simp only [Arranged, if_true] at h
    show isBareChain cs = false
    rw [← Bool.not_eq_true]
    intro bare
    rcases cs with _ | ⟨⟨t, x, _ | ⟨b, bs⟩⟩, _ | ⟨c, rest⟩⟩
    · exact ne h
    · cases t with
      | statement s =>
        obtain ⟨body, more, rfl, content, others⟩ := h
        cases content
        obtain rfl : more = [] := others
        simp [dividerTexts] at ne
      | _ => simp [isBareChain] at bare
    all_goals cases t <;> simp [isBareChain] at bare
  · simp only [Arranged, conditional, if_false] at h
    rw [Node.IsFilled, if_neg conditional]
    rintro rfl
    cases h
    exact ne rfl

theorem bodyTold_flat (text : n.data.isText = false) (writable : n.IsWritable running)
    (sound : ∀ b ∈ n.children, ∀ p ∈ b.data.properties, p.IsSound)
    (h : Arranged id (IsLaidOut (n.data.runsWithin running)) n outs) :
    ∃ is, Spells outs.flatten is ∧ n.BodyTold running is := by
  have inside := (isWritable_children text writable).2.2
  by_cases conditional : n.data = .conditional
  · simp only [Arranged, Node.BodyTold, conditional, if_true] at *
    exact told_flat_branches inside sound h
  · simp only [Arranged, Node.BodyTold, conditional, if_false] at *
    exact told_flat inside h true true (by simp)

theorem bodyTold_spread (text : n.data.isText = false) (writable : n.IsWritable false)
    (notRunning : n.data.runsWithin false = false)
    (sound : ∀ b ∈ n.children, ∀ p ∈ b.data.properties, p.IsSound) (ne : outs ≠ [])
    (h : Arranged id IsSpread n outs) :
    ∃ is, Spells (broken outs ++ ['\n']) is ∧ n.BodyTold false is := by
  have inside := (isWritable_children text writable).2.2
  rw [notRunning] at inside
  by_cases conditional : n.data = .conditional
  · simp only [Arranged, Node.BodyTold, conditional, if_true] at *
    exact told_spread_first inside sound ne h
  · simp only [Arranged, Node.BodyTold, conditional, if_false, notRunning] at *
    exact told_spread inside h true

theorem told_between (sound : n.element.IsSound) {opening body : List Char} {is : List Item}
    (opens : Spells opening [openingItem n.element false]) (spells : Spells body is)
    (filled : n.IsFilled) (told : n.BodyTold running is) :
    ∃ js, Spells (opening ++ body ++ n.element.closing) js ∧ n.Told running js :=
  ⟨_, (opens.append spells).append (spells_closing sound), by
    simpa using Node.told_of_body filled told⟩

end

end Layout

end WorldMarkup
