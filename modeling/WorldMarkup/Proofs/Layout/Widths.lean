import Mathlib
import WorldMarkup.Proofs.Layout.Outdoing
import WorldMarkup.Proofs.Layout.SteadyTexts

/-!
One document printed on two pages with one margin. Main statement: when all that is printed on
the other page fits the width of this one, so does what is printed on this one. At every node the
two pages have candidates of the same modes, and each candidate of this page fits when that of
the other does: the choices below it look for what fits.
-/

set_option autoImplicit false
set_option relaxedAutoImplicit false

namespace WorldMarkup.Layout

open Markup

variable {room : Nat}

/-! ### Documents on two pages -/

/-- The candidates of a node on two pages: in running text there is one, the same on both. -/
structure NodeOutdoes (position : Position) (room : Nat) (t : Tag) (cs cs' : List Candidate) :
    Prop where
  candidates : List.Forall₂ (Outdoes room) cs cs'
  running : position = .running → ∃ c, cs = [c] ∧ cs' = [c]
  tags : t.isText = false → ∀ c ∈ cs, c.output.head? = some '<'

/-- Whether what one page has for a forest matches what another has that has it: for its nodes as
children of an element, as branches of a conditional, and as running text. -/
structure Outprints (page page' : Page) (cs : Forest Tag) : Prop where
  children : ∀ (position : Position) (depth : Nat) {parts' : List Part},
    childParts page' position depth cs = .ok parts' →
    ∃ parts, childParts page position depth cs = .ok parts ∧
      List.Forall₂ (PartOutdoes (page.budget depth)) parts parts'
  branches : ∀ (position : Position) (depth : Nat) (first : Bool) {parts' : List Part},
    branchParts page' position depth first cs = .ok parts' →
    ∃ parts, branchParts page position depth first cs = .ok parts ∧
      List.Forall₂ (PartOutdoes (page.budget depth)) parts parts'
  pieces : ∀ (depth : Nat) {ps : List Piece}, runningPieces page' depth cs = .ok ps →
    runningPieces page depth cs = .ok ps ∧ ∀ p ∈ ps, HasSteadyAtom p

section

variable {page page' : Page} {position : Position} {depth : Nat} {t : Tag} {e : Extra}
  {cs : Forest Tag}

theorem depth_le_of_layouts {n : Node Tag} {found : List Candidate}
    (done : layouts page position depth n = .ok found) : depth ≤ maxDepth := by
  obtain ⟨t, e, cs⟩ := n
  unfold layouts at done
  split at done
  · simp at done
  · omega

theorem outdoes_keepNaive {found found' kept' : List Candidate}
    (h : List.Forall₂ (Outdoes room) found found') (done : keepNaive t found' = .ok kept') :
    ∃ c, kept' = [c] ∧ c ∈ found ∧ keepNaive t found = .ok [c] ∧ IsSteady c.output := by
  have naive := find?_naive_outdoes h
  unfold keepNaive at done ⊢
  cases hfound : found.find? (fun c => c.mode = .naive) with
  | none =>
    rw [hfound] at naive
    generalize found'.find? (fun c => c.mode = .naive) = b at naive done
    cases naive
    simp at done
  | some c =>
    rw [hfound] at naive
    generalize found'.find? (fun c => c.mode = .naive) = b at naive done
    cases naive with
    | some same =>
      obtain ⟨rfl, steady⟩ := same
      obtain rfl := Except.ok.inj done
      exact ⟨c, rfl, List.mem_of_find?_eq_some hfound, rfl, steady⟩

theorem Outprints.content (below : Outprints page page' cs) {parts' : List Part}
    (done : contentParts page' position depth ⟨t, e, cs⟩ = .ok parts') :
    ∃ parts, contentParts page position depth ⟨t, e, cs⟩ = .ok parts ∧
      List.Forall₂ (PartOutdoes (page.budget depth)) parts parts' := by
  unfold contentParts at done ⊢
  split at done
  · rename_i conditional
    rw [if_pos conditional]
    exact below.branches position depth true done
  · rename_i conditional
    rw [if_neg conditional]
    exact below.children position depth done

theorem Outprints.filled (below : Outprints page page' cs) (margin : page'.margin = page.margin)
    (oneLine : '\n' ∉ page.margin) (tags : HasSteadyTags (Node.element ⟨t, e, cs⟩))
    (isRunning : t.isRunning = true) {found' : List Candidate}
    (done : layouts page' .block depth ⟨t, e, cs⟩ = .ok found') :
    ∃ found, layouts page .block depth ⟨t, e, cs⟩ = .ok found ∧
      NodeOutdoes .block (page.budget depth) t found found' := by
  have shallow := depth_le_of_layouts done
  rw [layouts_running isRunning shallow] at done ⊢
  split at done
  · rename_i empty
    obtain rfl := Except.ok.inj done
    rw [if_pos empty]
    refine ⟨_, rfl, outdoes_renderEmpty tags margin oneLine, by simp, fun _ c hc => ?_⟩
    exact (steadyTag_of_mem_renderEmpty tags oneLine hc).head
  · rename_i some
    rw [if_neg some]
    cases hpieces : runningPieces page' (depth + 1) cs with
    | error fault => simp [hpieces, Except.map] at done
    | ok pieces =>
      obtain ⟨same, atoms⟩ := below.pieces (depth + 1) hpieces
      rw [hpieces] at done
      obtain rfl := Except.ok.inj done
      rw [same]
      exact ⟨_, rfl, outdoes_runningCandidates tags margin oneLine atoms, by simp,
        fun _ => head_of_mem_runningCandidates⟩

theorem Outprints.rendered (below : Outprints page page' cs) (margin : page'.margin = page.margin)
    (oneLine : '\n' ∉ page.margin) (tags : HasSteadyTags (Node.element ⟨t, e, cs⟩))
    (text : t.isText = false) (stays : position = .block → t.isRunning = false)
    {found' : List Candidate} (done : layouts page' position depth ⟨t, e, cs⟩ = .ok found') :
    ∃ found, layouts page position depth ⟨t, e, cs⟩ = .ok found ∧
      NodeOutdoes position (page.budget depth) t found found' := by
  have shallow := depth_le_of_layouts done
  rw [layouts_plain text stays shallow] at done ⊢
  obtain ⟨parts', hparts', done⟩ := Except.bind_eq_ok.1 done
  obtain ⟨all', rendered', done⟩ := Except.bind_eq_ok.1 done
  obtain ⟨parts, hparts, matched⟩ := below.content hparts'
  obtain ⟨all, rendered, candidates⟩ := outdoes_render tags margin oneLine matched rendered'
  have heads := head_of_mem_render rendered
  rw [hparts]
  simp only [bind, Except.bind, rendered]
  cases position with
  | block =>
    obtain rfl : all' = found' := by simpa [pure, Except.pure] using done
    exact ⟨all, rfl, candidates, by simp, fun _ => heads⟩
  | running =>
    simp only [if_true] at done
    obtain ⟨c, rfl, hc, kept, steady⟩ := outdoes_keepNaive candidates done
    refine ⟨[c], by simpa using kept, .cons (.refl steady) .nil, fun _ => ⟨c, rfl, rfl⟩, ?_⟩
    intro _ x hx
    rw [List.mem_singleton.1 hx]
    exact heads c hc

/-- A node has its candidates on this page if it has them on the other, and everything below it
does. -/
theorem Outprints.node (below : Outprints page page' cs) (margin : page'.margin = page.margin)
    (oneLine : '\n' ∉ page.margin) (own : IsWrittenSteadily (t, e)) (inside : HasSteadyTexts cs)
    {found' : List Candidate} (done : layouts page' position depth ⟨t, e, cs⟩ = .ok found') :
    ∃ found, layouts page position depth ⟨t, e, cs⟩ = .ok found ∧
      NodeOutdoes position (page.budget depth) t found found' := by
  have tags := hasSteadyTags_element own inside
  cases text : t.isText with
  | true =>
    obtain ⟨value, rfl⟩ := Tag.eq_text_of_isText text
    have shallow := depth_le_of_layouts done
    rw [layouts_text shallow] at done ⊢
    obtain rfl := Except.ok.inj done
    have steady := steady_escapeText (own.2 value rfl)
    exact ⟨_, rfl, .cons (.refl steady) .nil, fun _ => ⟨_, rfl, rfl⟩, by simp [text]⟩
  | false =>
    by_cases runs : position = .block ∧ t.isRunning = true
    · obtain ⟨rfl, isRunning⟩ := runs
      exact below.filled margin oneLine tags isRunning done
    · refine below.rendered margin oneLine tags text (fun block => ?_) done
      simpa [block] using runs

theorem Outprints.cons_pieces {rest : Forest Tag} (below : Outprints page page' cs)
    (beside : Outprints page page' rest) (margin : page'.margin = page.margin)
    (oneLine : '\n' ∉ page.margin) (own : IsWrittenSteadily (t, e)) (inside : HasSteadyTexts cs)
    {ps : List Piece} (done : runningPieces page' depth (⟨t, e, cs⟩ :: rest) = .ok ps) :
    runningPieces page depth (⟨t, e, cs⟩ :: rest) = .ok ps ∧ ∀ p ∈ ps, HasSteadyAtom p := by
  cases text : t.isText with
  | true =>
    obtain ⟨value, rfl⟩ := Tag.eq_text_of_isText text
    rw [runningPieces] at done ⊢
    obtain ⟨more, hmore, done⟩ := Except.bind_eq_ok.1 done
    obtain rfl := Except.ok.inj done
    obtain ⟨same, atoms⟩ := beside.pieces depth hmore
    rw [same]
    refine ⟨rfl, List.forall_mem_append.2 ⟨?_, atoms⟩⟩
    simp [HasSteadyAtom]
  | false =>
    rw [runningPieces_node text] at done ⊢
    obtain ⟨found', hfound', done⟩ := Except.bind_eq_ok.1 done
    obtain ⟨more, hmore, done⟩ := Except.bind_eq_ok.1 done
    obtain rfl := Except.ok.inj done
    obtain ⟨found, hfound, node⟩ := below.node margin oneLine own inside hfound'
    obtain ⟨c, rfl, rfl⟩ := node.running rfl
    obtain ⟨same, atoms⟩ := beside.pieces depth hmore
    rw [hfound, same]
    refine ⟨rfl, List.forall_mem_cons.2 ⟨⟨node.tags text c (by simp), ?_⟩, atoms⟩⟩
    cases node.candidates with
    | cons better _ => exact better.output.steady

theorem steady_dividers {first : Bool} (own : IsWrittenSteadily (t, e)) {parts : List Part}
    (done : dividers first t = .ok parts) :
    List.Forall₂ (PartOutdoes room) parts parts := by
  have divider : ∀ {text : List Char}, branchDivider t = .ok text → IsSteady text := by
    intro text h
    cases t with
    | statement s =>
      obtain rfl := Except.ok.inj h
      have condition : Property.condition s.condition ∈
          (Tag.statement s).properties ++ e.properties := by simp [Tag.properties]
      have tags : HasSteadyTags ⟨"ElseIf", [.condition s.condition]⟩ := by
        apply hasSteadyTags_of_properties (show IsSteady "ElseIf".toList by decide)
        · exact List.forall_mem_singleton.2 (startsPlainly_of_mem _ condition)
        · exact List.forall_mem_singleton.2 (own.1 _ condition)
      exact (steadyTag_selfClosing tags).steady
    | fallthrough =>
      obtain rfl := Except.ok.inj h
      decide
    | _ => simp [branchDivider] at h
  unfold dividers at done
  split at done
  · obtain rfl := Except.ok.inj done
    exact .nil
  · cases hdivider : branchDivider t with
    | error fault => simp [hdivider, Except.map] at done
    | ok text =>
      rw [hdivider] at done
      obtain rfl := Except.ok.inj done
      exact .cons (.divider (divider hdivider)) .nil

/-- What one page has for a forest that is written steadily matches what another page has, if
their margins are one. -/
theorem outprints (margin : page'.margin = page.margin) (oneLine : '\n' ∉ page.margin)
    (steady : HasSteadyTexts cs) : Outprints page page' cs := by
  induction cs using Forest.induction with
  | nil =>
    constructor
    · intro position depth parts' done
      obtain rfl : [] = parts' := by simpa [childParts] using done
      exact ⟨[], rfl, .nil⟩
    · intro position depth first parts' done
      obtain rfl : [] = parts' := by simpa [branchParts] using done
      exact ⟨[], rfl, .nil⟩
    · intro depth ps done
      obtain rfl : [] = ps := by simpa [runningPieces] using done
      exact ⟨rfl, by simp⟩
  | cons t e cs rest hcs hrest =>
    obtain ⟨own, inside, others⟩ := hasSteadyTexts_cons.1 steady
    have below := hcs inside
    have beside := hrest others
    constructor
    · intro position depth parts' done
      rw [childParts] at done ⊢
      obtain ⟨found', hfound', done⟩ := Except.bind_eq_ok.1 done
      obtain ⟨more', hmore', done⟩ := Except.bind_eq_ok.1 done
      obtain rfl := Except.ok.inj done
      obtain ⟨found, hfound, node⟩ := below.node margin oneLine own inside hfound'
      obtain ⟨more, hmore, matched⟩ := beside.children position depth hmore'
      rw [hfound, hmore]
      exact ⟨_, rfl, .cons (.child node.candidates) matched⟩
    · intro position depth first parts' done
      rw [branchParts] at done ⊢
      obtain ⟨divider, hdivider, done⟩ := Except.bind_eq_ok.1 done
      obtain ⟨content', hcontent', done⟩ := Except.bind_eq_ok.1 done
      obtain ⟨more', hmore', done⟩ := Except.bind_eq_ok.1 done
      obtain rfl := Except.ok.inj done
      obtain ⟨content, hcontent, contents⟩ := below.children position depth hcontent'
      obtain ⟨more, hmore, matched⟩ := beside.branches position depth false hmore'
      rw [hdivider, hcontent, hmore]
      exact ⟨_, rfl, List.rel_append (List.rel_append (steady_dividers own hdivider) contents)
        matched⟩
    · exact fun depth _ done => below.cons_pieces beside margin oneLine own inside done

theorem printRoot_noWider (margin : page'.margin = page.margin) (oneLine : '\n' ∉ page.margin)
    {n : Node Tag} (steady : HasSteadyTexts [n]) {out' : List Char}
    (done : printRoot page' n = .ok out') :
    ∃ out out'', printRoot page n = .ok (out ++ ['\n']) ∧ out' = out'' ++ ['\n'] ∧
      IsNoWider page.width out out'' := by
  obtain ⟨t, e, cs⟩ := n
  obtain ⟨own, inside, -⟩ := hasSteadyTexts_cons.1 steady
  unfold printRoot at done ⊢
  obtain ⟨found', hfound', done⟩ := Except.bind_eq_ok.1 done
  obtain ⟨chosen', hchosen', done⟩ := Except.bind_eq_ok.1 done
  obtain rfl := Except.ok.inj done
  obtain ⟨found, hfound, node⟩ :=
    (outprints margin oneLine inside).node margin oneLine own inside hfound'
  have choice := choose?_outdoes node.candidates (page'.budget 0)
  simp only [collapse, choose] at hchosen'
  rw [hfound]
  simp only [collapse, choose, bind, Except.bind]
  generalize choose? (page.budget 0) found = a at choice ⊢
  generalize choose? (page'.budget 0) found' = b at choice hchosen'
  cases choice with
  | none => simp [Except.map] at hchosen'
  | @some x x' better =>
    obtain rfl := Except.ok.inj hchosen'
    refine ⟨x.1.output, x'.1.output, rfl, rfl, ?_⟩
    simpa [Page.budget] using better

theorem printList_noWider (margin : page'.margin = page.margin) (oneLine : '\n' ∉ page.margin)
    {t : Forest Tag} (steady : HasSteadyTexts t) {out' : List Char}
    (done : printList page' t = .ok out') (fits : Fits page.width out') :
    ∃ out, printList page t = .ok out ∧ Fits page.width out := by
  induction t generalizing out' with
  | nil =>
    obtain rfl := Except.ok.inj done
    exact ⟨[], rfl, fits⟩
  | cons n rest ih =>
    obtain ⟨d, e, cs⟩ := n
    obtain ⟨own, inside, others⟩ := hasSteadyTexts_cons.1 steady
    have first : HasSteadyTexts [⟨d, e, cs⟩] :=
      hasSteadyTexts_cons.2 ⟨own, inside, by simp [HasSteadyTexts, Forest.preorder]⟩
    rw [printList] at done ⊢
    obtain ⟨root', hroot', done⟩ := Except.bind_eq_ok.1 done
    obtain ⟨more', hmore', done⟩ := Except.bind_eq_ok.1 done
    obtain rfl := Except.ok.inj done
    obtain ⟨root, root'', hroot, rfl, better⟩ := printRoot_noWider margin oneLine first hroot'
    rw [List.append_assoc, List.singleton_append, fits_append_break better.steady'] at fits
    obtain ⟨more, hmore, within⟩ := ih others hmore' fits.2
    rw [hroot, hmore]
    refine ⟨_, rfl, ?_⟩
    rw [List.append_assoc, List.singleton_append, fits_append_break better.steady]
    exact ⟨better.fits fits.1, within⟩

end

/-- No width beats the one that is asked for: if a forest can be printed for some width in lines
of at most `width` characters, then it is printed in such lines when `width` is asked for. This
takes that the forest is written steadily: a line feed takes a carriage return along each time a
block is indented, so a line that ends in several of them is measured wider than it is printed. -/
theorem print_fits_of_print_fits {t : Forest Tag} (steady : HasSteadyTexts t) {indent : String}
    (oneLine : '\n' ∉ indent.toList) {width width' : Nat} {printed' : String}
    (done : print ⟨width', indent⟩ t = .ok printed')
    (fits : ∀ l ∈ lines printed'.toList, l.length ≤ width) :
    ∃ printed, print ⟨width, indent⟩ t = .ok printed ∧
      ∀ l ∈ lines printed.toList, l.length ≤ width := by
  unfold print at done ⊢
  cases hlist : printList ⟨width', indent⟩ t with
  | error fault => simp [hlist, Except.map] at done
  | ok out' =>
    rw [hlist] at done
    obtain rfl := Except.ok.inj done
    rw [String.toList_ofList] at fits
    have margin : (Page.mk width' indent).margin = (Page.mk width indent).margin := rfl
    obtain ⟨out, hout, within⟩ := printList_noWider margin oneLine steady hlist fits
    refine ⟨String.ofList out, by rw [hout]; rfl, ?_⟩
    rwa [String.toList_ofList]

theorem exists_of_widest (page : Page) (t : Forest Tag) {n : Nat}
    (h : (print page t).toOption.map (fun s => widest s.toList) = some n) :
    ∃ printed, print page t = .ok printed ∧ widest printed.toList = n := by
  cases done : print page t with
  | error e => simp [done, Except.toOption] at h
  | ok printed => exact ⟨printed, rfl, by simpa [done, Except.toOption] using h⟩

def houseWithName (id : String) : Forest Tag :=
  [.branch (.asset "h") [.branch (.room "r") [⟨.field .name, .named id, [.leaf (.text "abc")]⟩]]]

/-- One carriage return before the line break does no harm. -/
theorem print_fits_of_print_fits_houseWithName :
    HasSteadyTexts (houseWithName "xxx\r\ny") ∧ ∃ printed' printed : String,
      print ⟨38, "            "⟩ (houseWithName "xxx\r\ny") = .ok printed' ∧
        (∀ l ∈ lines printed'.toList, l.length ≤ 37) ∧
        print ⟨37, "            "⟩ (houseWithName "xxx\r\ny") = .ok printed ∧
        ∀ l ∈ lines printed.toList, l.length ≤ 37 := by
  have steady : HasSteadyTexts (houseWithName "xxx\r\ny") := by decide
  obtain ⟨printed', done, wide⟩ := exists_of_widest ⟨38, "            "⟩
    (houseWithName "xxx\r\ny") (n := 37) (by cbv)
  have fits : Fits 37 printed'.toList := widest_le_iff.1 (Nat.le_of_eq wide)
  obtain ⟨printed, asked, within⟩ := print_fits_of_print_fits steady (by decide) done fits
  exact ⟨steady, printed', printed, done, fits, asked, within⟩

set_option maxRecDepth 4096 in
/-- With two carriage returns before the line break the tag of the name is measured a character
wider than it is printed. On the page that is just wide enough for it the text is put on a line of
its own, which is wider still. -/
theorem print_houseWithName_twoReturns : ∃ printed' printed : String,
    print ⟨38, "            "⟩ (houseWithName "xxx\r\r\ny") = .ok printed' ∧
      (∀ l ∈ lines printed'.toList, l.length ≤ 37) ∧
      print ⟨37, "            "⟩ (houseWithName "xxx\r\r\ny") = .ok printed ∧
      ¬ ∀ l ∈ lines printed.toList, l.length ≤ 37 := by
  obtain ⟨printed', done, wide⟩ := exists_of_widest ⟨38, "            "⟩
    (houseWithName "xxx\r\r\ny") (n := 37) (by cbv)
  obtain ⟨printed, asked, wider⟩ := exists_of_widest ⟨37, "            "⟩
    (houseWithName "xxx\r\r\ny") (n := 39) (by cbv)
  refine ⟨printed', printed, done, widest_le_iff.1 (Nat.le_of_eq wide), asked, fun fits => ?_⟩
  have narrow : widest printed.toList ≤ 37 := widest_le_iff.2 fits
  omega

end WorldMarkup.Layout
