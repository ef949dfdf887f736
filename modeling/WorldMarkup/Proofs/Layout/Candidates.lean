import WorldMarkup.Proofs.Layout.Contents

/-!
Candidate layouts say what they are laid out for. Main statements: the first candidate of a node
is on one line and says the node anywhere; in a block every candidate says the node and is tidy;
and a node that is written has candidates.
-/

set_option autoImplicit false
set_option relaxedAutoImplicit false

namespace WorldMarkup.Layout

open Markup

/-- Whether the margin is made of spaces and tabulators. -/
def Page.IsPlain (page : Page) : Prop := ∀ c ∈ page.margin, c = ' ' ∨ c = '\t'

theorem Page.IsPlain.blank {page : Page} (h : page.IsPlain) :
    page.margin.all isLayoutBlank = true := by
  rw [List.all_eq_true]
  intro c hc
  rcases h c hc with rfl | rfl <;> decide

theorem Page.IsPlain.oneLine {page : Page} (h : page.IsPlain) : '\n' ∉ page.margin := by
  intro hn
  rcases h _ hn with h | h <;> exact absurd h (by decide)

/-- Whether the candidates are layouts of the node, which stands in running text or not. -/
structure IsLaid (position : Position) (running : Bool) (n : Node Tag)
    (candidates : List Candidate) : Prop where
  first : ∃ c rest, candidates = c :: rest ∧ c.mode = .naive ∧ '\n' ∉ c.output ∧
    (n.data.isText = false → IsTagLine c.output) ∧ IsLaidOut running n c.output
  block : position = .block → ∀ c ∈ candidates, isTidy none c.output = true ∧
    ∃ is, Spells c.output is ∧ n.Told running is

variable {page : Page} {position : Position} {running : Bool} {n : Node Tag}
  {candidates : List Candidate}

/-! ### Choosing -/

theorem choose?_of_ne_nil (budget : Nat) (ne : candidates ≠ []) :
    ∃ c i, choose? budget candidates = some (c, i) ∧ c ∈ candidates := by
  have mem : ∀ x ∈ candidates.zipIdx, x.1 ∈ candidates := fun x hx =>
    List.fst_mem_of_mem_zipIdx hx
  unfold choose?
  cases found : candidates.zipIdx.find? (fun c => c.1.width ≤ budget) with
  | some x => exact ⟨x.1, x.2, by simp [found], mem x (List.mem_of_find?_eq_some found)⟩
  | none =>
    have ne' : candidates.zipIdx ≠ [] := by simpa using ne
    refine ⟨(candidates.zipIdx.getLast ne').1, (candidates.zipIdx.getLast ne').2, ?_,
      mem _ (List.getLast_mem ne')⟩
    simp only [found, Option.none_or, List.getLast?_eq_some_getLast ne']

theorem collapse_of_ne_nil (page : Page) (depth : Nat) (ne : candidates ≠ []) :
    ∃ c, collapse page depth candidates = .ok c ∧ c ∈ candidates := by
  obtain ⟨c, i, h, mem⟩ := choose?_of_ne_nil (page.budget depth) ne
  exact ⟨c, by simp [collapse, choose, h, Except.map], mem⟩

namespace IsLaid

theorem ne_nil (h : IsLaid position running n candidates) : candidates ≠ [] := by
  obtain ⟨c, rest, rfl, -⟩ := h.first
  simp

theorem naive (h : IsLaid position running n candidates) :
    ∃ out, (Part.child candidates).naive? = some out ∧ IsLaidOut running n out ∧ '\n' ∉ out := by
  obtain ⟨c, rest, rfl, mode, oneLine, -, laidOut⟩ := h.first
  exact ⟨c.output, by simp [Part.naive?, mode], laidOut, oneLine⟩

theorem isSpread_indentBlock (h : IsLaid .block false n candidates) (plain : page.IsPlain)
    {c : Candidate} (hc : c ∈ candidates) :
    IsSpread n (indentBlock c.output page.margin) ∧
      isTidy none (indentBlock c.output page.margin) = true := by
  obtain ⟨tidy, is, spells, told⟩ := h.block rfl c hc
  refine ⟨?_, isTidy_indentBlock plain.oneLine tidy⟩
  exact ⟨page.margin, respace page.margin c.output, indentBlock_of_isTidy page.margin tidy,
    plain.blank, _, spells.respace plain.blank, told.respace plain.blank⟩

theorem nested (h : IsLaid position running n candidates) (plain : page.IsPlain) (depth : Nat) :
    ∃ out, (Part.child candidates).nested? page depth = some out ∧
      (position = .block → running = false → IsSpread n out ∧ isTidy none out = true) := by
  have ne : candidates.filter (fun c => c.mode ≠ .propertyNested) ≠ [] := by
    obtain ⟨c, rest, rfl, mode, -⟩ := h.first
    simp [mode]
  obtain ⟨c, i, chosen, mem⟩ := choose?_of_ne_nil (page.budget (depth + 1)) ne
  refine ⟨indentBlock c.output page.margin, by simp only [Part.nested?, chosen]; rfl, ?_⟩
  rintro rfl rfl
  exact h.isSpread_indentBlock plain (List.mem_of_mem_filter mem)

theorem spread (h : IsLaid position running n candidates) (plain : page.IsPlain) (depth : Nat) :
    ∃ out, (Part.child candidates).spread page depth = .ok out ∧
      (position = .block → running = false → IsSpread n out ∧ isTidy none out = true) := by
  obtain ⟨c, collapsed, mem⟩ := collapse_of_ne_nil page (depth + 1) h.ne_nil
  refine ⟨indentBlock c.output page.margin, by simp [Part.spread, collapsed, Except.map], ?_⟩
  rintro rfl rfl
  exact h.isSpread_indentBlock plain mem

theorem keepNaive (h : IsLaid position running n candidates) (t : Tag) :
    ∃ kept, Layout.keepNaive t candidates = .ok kept ∧ IsLaid .running running n kept := by
  obtain ⟨c, rest, rfl, mode, shape⟩ := h.first
  exact ⟨[c], by simp [Layout.keepNaive, mode], ⟨c, [], rfl, mode, shape⟩, by simp⟩

end IsLaid

/-! ### Elements -/

theorem isTidy_unlines {outs : List (List Char)} (ne : outs ≠ [])
    (tidy : ∀ out ∈ outs, isTidy none out = true) : isTidy none (unlines outs) = true := by
  induction outs with
  | nil => exact absurd rfl ne
  | cons out outs ih =>
    simp only [List.mem_cons, forall_eq_or_imp] at tidy
    by_cases h : outs = []
    · subst h
      simpa [unlines] using tidy.1
    · rw [unlines_cons h]
      exact isTidy_append_break tidy.1 (ih h tidy.2)

theorem isTidy_between {opening closing : List Char} {outs : List (List Char)}
    (opens : isTidy none opening = true) (closes : isTidy none closing = true) (ne : outs ≠ [])
    (tidy : ∀ out ∈ outs, isTidy none out = true) :
    isTidy none (between opening outs closing) = true :=
  isTidy_append_break opens (isTidy_append_break (isTidy_unlines ne tidy) closes)

theorem isTagLine_divider {t : Tag} (sound : ∀ p ∈ t.properties, p.IsSound) (first : Bool) :
    ∀ d ∈ dividerTexts first t, IsTagLine d := by
  have otherwise : IsTagLine (Element.selfClosing ⟨"Else", []⟩) :=
    isTagLine_selfClosing ⟨by decide, by simp, by simp⟩
  intro d hd
  cases t with
  | statement s =>
    cases first with
    | true => simp [dividerTexts] at hd
    | false =>
      have ps : ∀ p ∈ [Property.condition s.condition], p.IsSound := sound
      have name : isName "ElseIf".toList = true := by decide
      obtain rfl : d = _ := by simpa [dividerTexts] using hd
      exact isTagLine_selfClosing ⟨name, fun p hp => (ps p hp).1, fun p hp => (ps p hp).2⟩
  | _ =>
    obtain rfl : d = Element.selfClosing ⟨"Else", []⟩ := by
      cases first <;> simpa [dividerTexts] using hd
    exact otherwise

section Contents

variable (text : n.data.isText = false) (sound : n.element.IsSound)
  (branches : ∀ b ∈ n.children, ∀ p ∈ b.data.properties, p.IsSound) (filled : n.IsFilled)

include text sound branches filled

theorem told_line (writable : n.IsWritable running) {outs : List (List Char)}
    (arranged : Arranged id
      (fun m out => IsLaidOut (n.data.runsWithin running) m out ∧ '\n' ∉ out) n outs) :
    IsTagLine (n.element.opening ++ outs.flatten ++ n.element.closing) ∧
      ∃ is, Spells (n.element.opening ++ outs.flatten ++ n.element.closing) is ∧
        n.Told running is := by
  have oneLine : '\n' ∉ outs.flatten := by
    simp only [List.mem_flatten, not_exists, not_and]
    exact forall_arranged (R := fun out => '\n' ∉ out) (fun _ _ h => h.2)
      (fun b hb first d hd => (isTagLine_divider (branches b hb) first d hd).oneLine) arranged
  obtain ⟨is, spells, body⟩ := bodyTold_flat text writable branches
    (arranged.imp fun _ _ h => h.1)
  exact ⟨(isTagLine_opening sound).between (isTagLine_closing sound) oneLine,
    told_between sound (spells_opening sound) spells filled body⟩

theorem told_lines (writable : n.IsWritable false) (stays : n.data.runsWithin false = false)
    {outs : List (List Char)} (ne : outs ≠ [])
    (arranged : Arranged id (fun m out => IsSpread m out ∧ isTidy none out = true) n outs)
    {opening : List Char} (tidy : isTidy none opening = true)
    (opens : Spells opening [openingItem n.element false]) :
    isTidy none (between opening outs n.element.closing) = true ∧
      ∃ is, Spells (between opening outs n.element.closing) is ∧ n.Told false is := by
  have tidyOuts := forall_arranged (R := fun out => isTidy none out = true) (fun _ _ h => h.2)
    (fun b hb first d hd => (isTagLine_divider (branches b hb) first d hd).isTidy none) arranged
  obtain ⟨is, spells, body⟩ := bodyTold_spread text writable stays branches ne
    (arranged.imp fun _ _ h => h.1)
  refine ⟨isTidy_between tidy ((isTagLine_closing sound).isTidy none) ne tidyOuts, ?_⟩
  rw [between_eq _ _ ne]
  exact told_between sound opens spells filled body

end Contents

section

variable (plain : page.IsPlain) (text : n.data.isText = false) (sound : n.element.IsSound)

include plain text sound

theorem isLaid_renderEmpty (told : n.Told running [openingItem n.element true]) :
    IsLaid position running n (renderEmpty page n.element) where
  first := ⟨_, _, rfl, rfl, (isTagLine_selfClosing sound).oneLine,
    fun _ => isTagLine_selfClosing sound,
    (isLaidOut_iff text ..).mpr ⟨_, spells_selfClosing sound, told⟩⟩
  block := by
    rintro - c hc
    unfold renderEmpty at hc
    rcases List.mem_cons.mp hc with rfl | hc
    · exact ⟨(isTagLine_selfClosing sound).isTidy none, _, spells_selfClosing sound, told⟩
    · split at hc
      · simp at hc
      · obtain rfl := List.mem_singleton.mp hc
        exact ⟨isTidy_selfClosingBlock sound plain.oneLine, _,
          spells_selfClosingBlock sound plain.blank, told⟩

omit plain in
theorem exists_rows {m : Type → Type} [Monad m] [LawfulMonad m] (writable : n.IsWritable running)
    (branches : ∀ b ∈ n.children, ∀ p ∈ b.data.properties, p.IsSound)
    (still : position = .block → running = false ∧ n.data.runsWithin false = false)
    {parts : List Part} (empty : parts ≠ []) (row : Part → m (List Char))
    (child : ∀ x cs, IsLaid position (n.data.runsWithin running) x cs →
      ∃ out, row (.child cs) = pure out ∧ (position = .block →
        n.data.runsWithin running = false → IsSpread x out ∧ isTidy none out = true))
    (divider : ∀ text, row (.divider text) = pure text)
    (arranged : Arranged .divider (fun x p => ∃ cs, p = .child cs ∧
      IsLaid position (n.data.runsWithin running) x cs) n parts)
    {opening : List Char} (tidy : isTidy none opening = true)
    (opens : Spells opening [openingItem n.element false]) :
    ∃ outs, parts.mapM row = pure outs ∧ (position = .block →
      isTidy none (between opening outs n.element.closing) = true ∧
        ∃ is, Spells (between opening outs n.element.closing) is ∧ n.Told running is) := by
  obtain ⟨outs, rows, length, arranged'⟩ := mapM_arranged (f := row)
    (Q := fun x out => position = .block → n.data.runsWithin running = false →
      IsSpread x out ∧ isTidy none out = true)
    (b := id) (by rintro x p ⟨cs, rfl, laid⟩; exact child x cs laid) divider arranged
  refine ⟨outs, rows, fun block => ?_⟩
  obtain ⟨rfl, stays⟩ := still block
  have ne : outs ≠ [] := by
    rintro rfl
    exact empty (List.eq_nil_of_length_eq_zero length.symm)
  exact told_lines text sound branches (isFilled_of_arranged arranged empty) writable stays ne
    (arranged'.imp fun _ _ h => h block stays) tidy opens

/-- The candidates of an element are layouts of its node, if those of its children are layouts of
them. -/
theorem isLaid_render (writable : n.IsWritable running)
    (branches : ∀ b ∈ n.children, ∀ p ∈ b.data.properties, p.IsSound)
    (still : position = .block → running = false ∧ n.data.runsWithin false = false)
    (depth : Nat) {parts : List Part}
    (arranged : Arranged .divider (fun m p => ∃ cs, p = .child cs ∧
      IsLaid position (n.data.runsWithin running) m cs) n parts) :
    ∃ candidates, render page depth n.element parts = .ok candidates ∧
      IsLaid position running n candidates := by
  by_cases empty : parts = []
  · subst empty
    exact ⟨_, by simp [render], isLaid_renderEmpty plain text sound (told_empty arranged)⟩
  have full : parts.any Part.isWithoutCandidates = false := by
    rw [List.any_eq_false]
    refine forall_arranged ?_ (fun _ _ _ _ _ => by simp [Part.isWithoutCandidates]) arranged
    rintro m p ⟨cs, rfl, laid⟩
    simpa [Part.isWithoutCandidates] using laid.ne_nil
  obtain ⟨flat, hflat, -, flatArranged⟩ := mapM_arranged (f := Part.naive?)
    (Q := fun m out => IsLaidOut (n.data.runsWithin running) m out ∧ '\n' ∉ out)
    (b := id) (by rintro m p ⟨cs, rfl, laid⟩; exact laid.naive) (fun d => rfl) arranged
  obtain ⟨line, toldFlat⟩ := told_line text sound branches (isFilled_of_arranged arranged empty)
    writable flatArranged
  obtain ⟨nested, hnested, toldNested⟩ := exists_rows text sound writable branches still empty
    (Part.nested? page depth) (fun x cs laid => laid.nested plain depth) (fun _ => rfl) arranged
    ((isTagLine_opening sound).isTidy none) (spells_opening sound)
  obtain ⟨spread, hspread, toldSpread⟩ := exists_rows text sound writable branches still empty
    (Part.spread page depth) (fun x cs laid => laid.spread plain depth) (fun _ => rfl) arranged
    (isTidy_openingBlock sound plain.oneLine) (spells_openingBlock sound plain.blank)
  have first (rest : List Candidate) : ∃ c rest', Candidate.mk .naive
        (n.element.opening ++ flat.flatten ++ n.element.closing) :: rest = c :: rest' ∧
      c.mode = .naive ∧ '\n' ∉ c.output ∧ (n.data.isText = false → IsTagLine c.output) ∧
      IsLaidOut running n c.output :=
    ⟨_, rest, rfl, rfl, line.oneLine, fun _ => line, (isLaidOut_iff text ..).mpr toldFlat⟩
  have naiveBlock : isTidy none (n.element.opening ++ flat.flatten ++ n.element.closing) = true :=
    line.isTidy none
  rw [render, if_neg (by simpa using empty), if_neg (by simp [full])]
  cases properties : n.element.properties.isEmpty with
  | true =>
    refine ⟨_, by simp [hflat, hnested, pure, Except.pure, bind, Except.bind]; rfl, first _, ?_⟩
    intro h c hc
    simp only [List.mem_cons, List.not_mem_nil, or_false] at hc
    rcases hc with rfl | rfl
    · exact ⟨naiveBlock, toldFlat⟩
    · exact toldNested h
  | false =>
    refine ⟨_, by simp [hflat, hnested, hspread, pure, Except.pure, bind, Except.bind]; rfl,
      first _, ?_⟩
    intro h c hc
    simp only [List.mem_cons, List.not_mem_nil, or_false] at hc
    rcases hc with rfl | rfl | rfl
    · exact ⟨naiveBlock, toldFlat⟩
    · exact toldNested h
    · exact toldSpread h

end

/-! ### Fields and links -/

theorem isSoft_head?_of_spells {d : Char} {cs : List Char} {is : List Item} (h : Spells cs is)
    (head : cs.head? = some d) (nonblank : Text.isBlank d = false) :
    is.head?.all (fun i => !i.isSoft) = true := by
  cases h with
  | nil => rfl
  | @plain c cs is h rest =>
    obtain rfl : c = d := by simpa using head
    simp [Item.isSoft, isSoftBlank, nonblank]
  | escaped h rest => rfl
  | opening sound spelled rest => rfl
  | closing sound rest => rfl

theorem told_broken_lines (plain : page.IsPlain) {cs : Forest Tag}
    (writable : Forest.IsWritable true cs) {p : Piece} {ps : List Piece}
    (pieces : PiecesOf cs (p :: ps)) (first : p.isBlank = false)
    (last : (p :: ps).getLast?.all (fun q => !q.isBlank) = true) {out : List Char}
    (broken : Broken [] [] true (p :: ps) out) :
    ∃ is, Spells ('\n' :: (page.margin ++ (respace page.margin out ++ ['\n']))) is ∧
      Forest.Told true true true cs is := by
  have sound := pieces.sound
  have lines := (broken.respace page.margin sound).append_tail ['\n'] last (by simp)
  obtain ⟨is, spells, told⟩ := told_of_broken plain.blank (by decide) (by simp) writable pieces
    true true lines (fun _ => rfl) (by simp)
  obtain ⟨d, head, nonblank⟩ := lines.head_nonblank (sound p (by simp)) first
  have margin : ('\n' :: page.margin).all isLayoutBlank = true := by
    rw [List.all_cons, plain.blank]
    rfl
  refine ⟨_, (spells_break _ plain.blank).append spells,
    told.blanks (all_isSoftBlank_map margin) fun _ => ⟨rfl, by simp, ?_⟩⟩
  exact isSoft_head?_of_spells spells head nonblank

/-- The candidates of a field or a link with content are layouts of it. -/
theorem isLaid_runningCandidates (plain : page.IsPlain) (sound : n.element.IsSound)
    (text : n.data.isText = false) (notConditional : n.data ≠ .conditional)
    (filled : n.children ≠ []) (isRunning : n.data.runsWithin false = true)
    (writable : n.IsWritable false)
    {ps : List Piece} (pieces : PiecesOf n.children ps) (depth : Nat) :
    IsLaid .block false n (runningCandidates page depth n.element ps) := by
  have inside := (isWritable_children text writable).2.2
  rw [if_neg notConditional, isRunning] at inside
  have told : ∀ {opening body : List Char} {is : List Item},
      Spells opening [openingItem n.element false] → Spells body is →
      Forest.Told true true true n.children is →
      ∃ js, Spells (opening ++ body ++ n.element.closing) js ∧ n.Told false js := by
    intro opening body is opens spells told
    refine told_between sound opens spells (by rwa [Node.IsFilled, if_neg notConditional]) ?_
    rw [Node.BodyTold, if_neg notConditional, isRunning]
    exact told
  have oneLine : '\n' ∉ ps.flatMap Piece.written := by
    simp only [List.mem_flatMap, not_exists, not_and]
    exact fun p hp => Piece.oneLine_written (pieces.sound p hp)
  have line := (isTagLine_opening sound).between (isTagLine_closing sound) oneLine
  have noMargin : [].all isLayoutBlank = true := rfl
  obtain ⟨is, spells, body⟩ := told_of_broken noMargin noMargin (by simp) inside pieces true true
    (Broken.unbroken [] true ps) (fun _ => rfl) (by simp)
  have toldNaive := told (spells_opening sound) spells body
  refine ⟨⟨_, _, rfl, rfl, line.oneLine, fun _ => line, (isLaidOut_iff text ..).mpr toldNaive⟩, ?_⟩
  rintro - c hc
  rcases List.mem_cons.mp hc with rfl | hc
  · exact ⟨line.isTidy none, toldNaive⟩
  cases ps with
  | nil => simp [chunks?] at hc
  | cons p ps =>
    obtain ⟨q, hq⟩ : ∃ q, (p :: ps).getLast? = some q :=
      ⟨_, List.getLast?_eq_some_getLast (by simp)⟩
    simp only [chunks?, List.head?_cons, hq] at hc
    cases ends : p.isBlank || q.isBlank with
    | true => simp [ends] at hc
    | false =>
      simp only [ends, Bool.false_eq_true, if_false, List.mem_singleton] at hc
      simp only [Bool.or_eq_false_iff] at ends
      have last : (p :: ps).getLast?.all (fun q => !q.isBlank) = true := by simp [hq, ends.2]
      have full : [] ∉ chunksFrom true (p :: ps) :=
        nil_notMem_chunksFrom (by simp) fun h => (pieces.sound _ h).ne_atom_nil rfl
      have broken := Broken.of_joined
        (joined_fill (page.budget (depth + 1)) (chunksFrom_ne_nil true (p :: ps)) full)
      have tidy := broken.isTidy (a := none) pieces.sound last (by simp) (by simp)
      subst hc
      refine ⟨isTidy_between ((isTagLine_opening sound).isTidy none)
        ((isTagLine_closing sound).isTidy none) (by simp) ?_, ?_⟩
      · simpa using isTidy_indentBlock plain.oneLine tidy
      · obtain ⟨is, spells, body⟩ := told_broken_lines plain inside pieces ends.1 last broken
        have := told (spells_opening sound) spells body
        rw [between_eq _ _ (by simp), indentBlock_of_isTidy page.margin tidy]
        simpa [Layout.broken] using this

end WorldMarkup.Layout
