import WorldMarkup.Proofs.Layout.Candidates

/-!
Printing documents. Main statements: a forest that is written, with sound properties and not too
deep, gets its layouts at every level, and what is printed of it spells items that tell it.
-/

set_option autoImplicit false
set_option relaxedAutoImplicit false

namespace WorldMarkup.Layout

open Markup

variable {page : Page} {position : Position} {running : Bool}

/-! ### Properties -/

/-- Whether all properties of a forest are read as they are written, on one line. -/
def HasSoundProperties (cs : Forest Tag) : Prop :=
  ∀ x ∈ Forest.preorder cs, ∀ p ∈ x.1.properties ++ x.2.properties, p.IsSound

theorem hasSoundProperties_cons {t : Tag} {e : Extra} {cs rest : Forest Tag} :
    HasSoundProperties (⟨t, e, cs⟩ :: rest) ↔
      (∀ p ∈ t.properties ++ e.properties, p.IsSound) ∧ HasSoundProperties cs ∧
        HasSoundProperties rest := by
  simp only [HasSoundProperties, Forest.preorder, Node.preorder, List.mem_append, List.mem_cons]
  constructor
  · intro h
    exact ⟨h (t, e) (by simp), fun x hx => h x (by simp [hx]), fun x hx => h x (by simp [hx])⟩
  · rintro ⟨hn, hc, hr⟩ x ((rfl | hx) | hx)
    · exact hn
    · exact hc x hx
    · exact hr x hx

theorem sound_children {cs : Forest Tag} (h : HasSoundProperties cs) :
    ∀ b ∈ cs, ∀ p ∈ b.data.properties, p.IsSound := by
  induction cs with
  | nil => simp
  | cons n rest ih =>
    obtain ⟨t, e, cs⟩ := n
    obtain ⟨hn, -, hr⟩ := hasSoundProperties_cons.mp h
    simp only [List.mem_cons, forall_eq_or_imp]
    exact ⟨fun p hp => hn p (List.mem_append_left _ hp), ih hr⟩

theorem isName_label {t : Tag} (element : t.isElement = true) : isName t.label.toList = true := by
  cases t with
  | entity e =>
    show isName e.kind.label.toList = true
    rcases e.kind with _ | _ | _ | ⟨_ | _ | _ | _ | _ | _ | _ | _ | _ | _⟩ <;> decide
  | field f => cases f <;> decide
  | text _ => simp [Tag.isElement] at element
  | statement _ => simp [Tag.isElement] at element
  | fallthrough => simp [Tag.isElement] at element
  | _ => simp only [Tag.label]; decide

theorem element_isSound {t : Tag} {e : Extra} {cs : Forest Tag} (element : t.isElement = true)
    (sound : ∀ p ∈ t.properties ++ e.properties, p.IsSound)
    (branches : ∀ b ∈ cs, ∀ p ∈ b.data.properties, p.IsSound) :
    (Node.element ⟨t, e, cs⟩).IsSound := by
  have properties : ∀ p ∈ (Node.element ⟨t, e, cs⟩).properties, p.IsSound := by
    by_cases conditional : t = .conditional
    · subst conditional
      intro p hp
      rcases List.mem_append.mp hp with hp | hp
      · rcases cs with _ | ⟨⟨t, x, bs⟩, rest⟩
        · simp at hp
        · cases t with
          | statement s => exact branches ⟨.statement s, x, bs⟩ (by simp) p hp
          | _ => simp at hp
      · exact sound p (List.mem_append_right _ hp)
    · rwa [Node.element_plain conditional]
  refine ⟨?_, fun p hp => (properties p hp).1, fun p hp => (properties p hp).2⟩
  by_cases conditional : t = .conditional
  · subst conditional
    exact isName_label (t := .conditional) rfl
  · rw [Node.element_plain conditional]
    exact isName_label element

/-! ### Layouts -/

def contentParts (page : Page) (position : Position) (depth : Nat) (n : Node Tag) :
    Except PrintError (List Part) :=
  if n.data = .conditional then branchParts page position depth true n.children
  else childParts page position depth n.children

theorem layouts_running {t : Tag} (h : t.isRunning = true) {depth : Nat}
    (shallow : depth ≤ maxDepth) (e : Extra) (cs : Forest Tag) :
    layouts page .block depth ⟨t, e, cs⟩ =
      if cs.isEmpty then .ok (renderEmpty page (Node.element ⟨t, e, cs⟩))
      else (runningPieces page (depth + 1) cs).map
        (runningCandidates page depth (Node.element ⟨t, e, cs⟩)) := by
  have element : Node.element ⟨t, e, cs⟩ = .ofNode ⟨t, e, []⟩ :=
    Node.element_plain (by rintro rfl; simp [Tag.isRunning] at h)
  rw [layouts, if_neg (Nat.not_lt.mpr shallow), element]
  · simp only [h, decide_true, Bool.and_self, if_true]
    cases runningPieces page (depth + 1) cs <;> rfl
  · rintro value rfl
    simp [Tag.isRunning] at h

theorem layouts_plain {t : Tag} (text : t.isText = false)
    (h : position = .block → t.isRunning = false) {depth : Nat} (shallow : depth ≤ maxDepth)
    (e : Extra) (cs : Forest Tag) :
    layouts page position depth ⟨t, e, cs⟩ =
      (do
        let parts ← contentParts page position (depth + 1) ⟨t, e, cs⟩
        let candidates ← render page depth (Node.element ⟨t, e, cs⟩) parts
        if position = .running then keepNaive t candidates else pure candidates) := by
  have block : (decide (position = .block) && t.isRunning) = false := by
    cases position with
    | block => simp [h rfl]
    | running => rfl
  rw [layouts, if_neg (Nat.not_lt.mpr shallow)]
  · simp only [block, Bool.false_eq_true, if_false, contentParts]
    by_cases conditional : t = .conditional
    · subst conditional
      simp [Node.element]
    · rw [Node.element_plain conditional]
      simp [conditional, Element.ofNode]
  · exact Tag.ne_text_of_isText text

theorem layouts_text {value : String} {depth : Nat} (shallow : depth ≤ maxDepth) (e : Extra)
    (cs : Forest Tag) :
    layouts page position depth ⟨.text value, e, cs⟩ =
      .ok [⟨.naive, escapeText value.toList⟩] := by
  rw [layouts, if_neg (Nat.not_lt.mpr shallow)]

theorem runningPieces_node {t : Tag} (text : t.isText = false) (e : Extra) (cs rest : Forest Tag)
    (depth : Nat) :
    runningPieces page depth (⟨t, e, cs⟩ :: rest) =
      (do
        let candidates ← layouts page .running depth ⟨t, e, cs⟩
        let pieces ← runningPieces page depth rest
        pure (atomOf candidates :: pieces)) := by
  rw [runningPieces]
  rintro value e' cs' same
  cases same
  exact Tag.ne_text_of_isText text value rfl

/-- Whether everything below a forest gets its layouts: its nodes as children of an element, as
branches of a conditional, and as running text. -/
structure Prints (page : Page) (cs : Forest Tag) : Prop where
  children : ∀ {position : Position} {running : Bool} (depth : Nat),
    (position = .block → running = false) → Forest.IsWritable running cs →
    HasSoundProperties cs → depth + Forest.levels cs ≤ maxDepth + 1 →
    ∃ parts, childParts page position depth cs = .ok parts ∧
      List.Forall₂ (fun m p => ∃ candidates, p = .child candidates ∧
        IsLaid position running m candidates) cs parts
  branches : ∀ {position : Position} {running : Bool} (first : Bool) (depth : Nat),
    (position = .block → running = false) → Forest.AreWritableBranches running cs →
    HasSoundProperties cs → depth + Forest.branchLevels cs ≤ maxDepth + 1 →
    ∃ parts, branchParts page position depth first cs = .ok parts ∧
      Interleaved .divider (fun m p => ∃ candidates, p = .child candidates ∧
        IsLaid position running m candidates) first cs parts
  pieces : ∀ (depth : Nat), Forest.IsWritable true cs → HasSoundProperties cs →
    depth + Forest.levels cs ≤ maxDepth + 1 →
    ∃ ps, runningPieces page depth cs = .ok ps ∧ PiecesOf cs ps

theorem runsWithin_of_isRunning {t : Tag} (h : t.isRunning = false) :
    t.runsWithin false = false := by
  cases t <;> first | rfl | exact h

theorem runsWithin_false_of_isRunning {t : Tag} (h : t.isRunning = true) :
    t.runsWithin false = true := by
  cases t <;> first | rfl | exact absurd h (by simp [Tag.isRunning])

/-- A node gets its layouts when everything below it does. -/
theorem Prints.node {cs : Forest Tag} (below : Prints page cs) (plain : page.IsPlain) {t : Tag}
    {e : Extra} (text : t.isText = false) (position : Position) (running : Bool) (depth : Nat)
    (still : position = .block → running = false)
    (writable : Node.IsWritable running ⟨t, e, cs⟩)
    (sound : ∀ p ∈ t.properties ++ e.properties, p.IsSound) (inside : HasSoundProperties cs)
    (shallow : depth + Node.levels ⟨t, e, cs⟩ ≤ maxDepth + 1) :
    ∃ candidates, layouts page position depth ⟨t, e, cs⟩ = .ok candidates ∧
      IsLaid position running ⟨t, e, cs⟩ candidates := by
  have within : depth ≤ maxDepth := by
    have := Node.one_le_levels ⟨t, e, cs⟩
    omega
  obtain ⟨-, element, children⟩ := isWritable_children (n := ⟨t, e, cs⟩) text writable
  have branches := sound_children inside
  have elementSound := element_isSound (e := e) element sound branches
  by_cases runs : position = .block ∧ t.isRunning = true
  · obtain ⟨rfl, isRunning⟩ := runs
    obtain rfl := still rfl
    have notConditional : t ≠ .conditional := by
      rintro rfl
      simp [Tag.isRunning] at isRunning
    rw [layouts_running isRunning (by omega)]
    cases cs with
    | nil =>
      refine ⟨_, by rfl, isLaid_renderEmpty plain text elementSound ?_⟩
      rw [Node.element_plain notConditional, Node.told_plain notConditional]
      exact .inl ⟨rfl, rfl⟩
    | cons n rest =>
      simp only [notConditional, if_false, runsWithin_false_of_isRunning isRunning] at children
      rw [Node.levels_plain notConditional] at shallow
      obtain ⟨ps, hps, pieces⟩ := below.pieces (depth + 1) children inside (by omega)
      refine ⟨_, by simp only [hps]; rfl, ?_⟩
      exact isLaid_runningCandidates plain elementSound text notConditional (by simp)
        (runsWithin_false_of_isRunning isRunning) writable pieces depth
  · have stays : position = .block → t.isRunning = false := fun h => by simpa [h] using runs
    have still' : position = .block → running = false ∧ t.runsWithin false = false := fun h =>
      ⟨still h, runsWithin_of_isRunning (stays h)⟩
    have parts : ∃ parts, contentParts page position (depth + 1) ⟨t, e, cs⟩ = .ok parts ∧
        Arranged .divider (fun m p => ∃ candidates, p = .child candidates ∧
          IsLaid position (t.runsWithin running) m candidates) ⟨t, e, cs⟩ parts := by
      have stillBelow : position = .block → t.runsWithin running = false := fun h => by
        rw [still h]
        exact (still' h).2
      by_cases conditional : t = .conditional
      · subst conditional
        simp only [contentParts, Arranged, if_true] at children ⊢
        have inner := Forest.branchLevels_lt e cs
        exact below.branches true (depth + 1) still children inside (by omega)
      · rw [Node.levels_plain conditional] at shallow
        simp only [contentParts, Arranged, conditional, if_false] at children ⊢
        exact below.children (depth + 1) stillBelow children inside (by omega)
    obtain ⟨parts, hparts, arranged⟩ := parts
    obtain ⟨candidates, rendered, laid⟩ := isLaid_render plain (n := ⟨t, e, cs⟩) text elementSound
      writable branches still' depth arranged
    rw [layouts_plain text stays (by omega), hparts]
    simp only [bind, Except.bind, rendered]
    cases position with
    | block => exact ⟨candidates, by simp [pure, Except.pure], laid⟩
    | running =>
      obtain ⟨kept, hkept, laid⟩ := laid.keepNaive t
      exact ⟨kept, by simpa using hkept, laid⟩

theorem isLaid_text {value : String} (nonBlock : position ≠ .block) :
    IsLaid position running (.leaf (.text value)) [⟨.naive, escapeText value.toList⟩] where
  first := by
    refine ⟨_, _, rfl, rfl, ?_, by simp [Node.leaf, Tag.isText, Tag.text?], rfl⟩
    simp only [escapeText, List.mem_flatMap, not_exists, not_and]
    exact fun c _ => escapeTextChar_oneLine c
  block h := absurd h nonBlock

theorem dividers_eq {t : Tag} (plain : t.isPlainBranch = true) (first : Bool) :
    dividers first t = .ok ((dividerTexts first t).map Part.divider) := by
  cases t with
  | statement s => cases first <;> rfl
  | fallthrough => cases first <;> rfl
  | _ => simp [Tag.isPlainBranch] at plain

/-- Every forest that is written gets its layouts. -/
theorem prints (plain : page.IsPlain) (cs : Forest Tag) : Prints page cs := by
  induction cs using Forest.induction with
  | nil =>
    exact ⟨fun _ _ _ _ _ => ⟨[], rfl, .nil⟩, fun _ _ _ _ _ _ => ⟨[], rfl, rfl⟩,
      fun _ _ _ _ => ⟨[], rfl, rfl⟩⟩
  | cons t e cs rest hcs hrest =>
    constructor
    · intro position running depth still writable sound shallow
      obtain ⟨node, -, writable⟩ := writable
      obtain ⟨properties, inside, sound⟩ := hasSoundProperties_cons.mp sound
      rw [Forest.levels] at shallow
      obtain ⟨parts, hparts, others⟩ := hrest.children depth still writable sound (by omega)
      have node : ∃ candidates, layouts page position depth ⟨t, e, cs⟩ = .ok candidates ∧
          IsLaid position running ⟨t, e, cs⟩ candidates := by
        cases text : t.isText with
        | true =>
          obtain ⟨value, rfl⟩ := Tag.eq_text_of_isText text
          obtain ⟨rfl, rfl, rfl, -⟩ := node
          have := Node.one_le_levels ⟨.text value, {}, []⟩
          refine ⟨_, layouts_text (by omega) _ _, isLaid_text fun h => ?_⟩
          exact absurd (still h) (by simp)
        | false =>
          exact hcs.node plain text position running depth still node properties inside (by omega)
      obtain ⟨candidates, laidOut, laid⟩ := node
      refine ⟨.child candidates :: parts, ?_, .cons ⟨candidates, rfl, laid⟩ others⟩
      simp [childParts, laidOut, hparts, bind, Except.bind, pure, Except.pure]
    · intro position running first depth still writable sound shallow
      obtain ⟨branch, rfl, content, writable⟩ := writable
      obtain ⟨-, inside, sound⟩ := hasSoundProperties_cons.mp sound
      rw [Forest.branchLevels] at shallow
      obtain ⟨body, hbody, children⟩ := hcs.children depth still content inside
        (by omega)
      obtain ⟨more, hmore, others⟩ := hrest.branches false depth still writable sound
        (by omega)
      refine ⟨_, ?_, body, more, rfl, children, others⟩
      simp [branchParts, dividers_eq branch, hbody, hmore, bind, Except.bind, pure, Except.pure]
    · intro depth writable sound shallow
      obtain ⟨node, -, writable⟩ := writable
      obtain ⟨properties, inside, sound⟩ := hasSoundProperties_cons.mp sound
      rw [Forest.levels] at shallow
      obtain ⟨more, hmore, others⟩ := hrest.pieces depth writable sound (by omega)
      cases text : t.isText with
      | true =>
        obtain ⟨value, rfl⟩ := Tag.eq_text_of_isText text
        refine ⟨_, ?_, more, rfl, others⟩
        simp [runningPieces, hmore, bind, Except.bind, pure, Except.pure]
      | false =>
        obtain ⟨candidates, laidOut, laid⟩ := hcs.node plain text .running true depth (by simp) node
          properties inside (by omega)
        obtain ⟨c, others', rfl, -, -, line, told⟩ := laid.first
        obtain ⟨is, spells, told⟩ := (isLaidOut_iff (n := ⟨t, e, cs⟩) text ..).mp told
        refine ⟨.atom c.output :: more, ?_, (piecesOf_cons text ..).mpr
          ⟨c.output, is, more, rfl, line text, spells, told, others⟩⟩
        rw [runningPieces_node text]
        simp [laidOut, hmore, atomOf, bind, Except.bind, pure, Except.pure]

/-! ### Roots -/

/-- What is printed of a forest that is written spells items that tell it. -/
theorem printList_tells (plain : page.IsPlain) {t : Forest Tag}
    (writable : Forest.IsWritable false t) (sound : HasSoundProperties t)
    (shallow : Forest.levels t ≤ maxDepth + 1) (fresh : Bool) :
    ∃ text is, printList page t = .ok text ∧ Spells text is ∧
      Forest.Told false fresh true t is := by
  induction t generalizing fresh with
  | nil =>
    exact ⟨[], [], rfl, .nil, [], rfl, by simp, by simp [readRun]⟩
  | cons n rest ih =>
    obtain ⟨t, e, cs⟩ := n
    obtain ⟨node, -, writable⟩ := writable
    obtain ⟨properties, inside, sound⟩ := hasSoundProperties_cons.mp sound
    rw [Forest.levels] at shallow
    have text : t.isText = false := isText_of_isWritable node
    obtain ⟨candidates, laidOut, laid⟩ := (prints plain cs).node plain text .block false 0
      (fun _ => rfl) node properties inside (by omega)
    obtain ⟨c, collapsed, mem⟩ := collapse_of_ne_nil page 0 laid.ne_nil
    obtain ⟨-, ns, spells, toldNode⟩ := laid.block rfl c mem
    obtain ⟨others, is, printed, spells', told⟩ := ih writable sound (by omega) false
    have soft : [('\n', false)].all isSoftBlank = true := by decide
    have told := told.blanks soft (by simp)
    refine ⟨c.output ++ ['\n'] ++ others, ns ++ (.char '\n' false :: is), ?_, ?_,
      (Forest.told_cons text ..).mpr ⟨[], ns, _, rfl, by simp, by simp [readRun], toldNode, told⟩⟩
    · simp [printList, printRoot, laidOut, collapsed, printed, bind, Except.bind, pure,
        Except.pure]
    · rw [List.append_assoc]
      exact spells.append (spells'.plain (by decide))

end WorldMarkup.Layout
