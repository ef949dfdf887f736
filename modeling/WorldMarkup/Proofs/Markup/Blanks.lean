import WorldMarkup.Proofs.Markup.Reading

/-!
Blanks that the reader takes back. In running text a line may end at a single blank between two
characters that are none, and a margin may follow every line break; elsewhere blanks may stand
between any two tags. Main statements: a wrapped text settles to what it was, and items that tell
a forest still do after a margin has been put in behind their line breaks.
-/

set_option autoImplicit false
set_option relaxedAutoImplicit false

namespace WorldMarkup

namespace Markup

variable {atStart atEnd : Bool}

/-! ### Settling one run after another -/

theorem settleBlanks_nil : settleBlanks atStart atEnd [] = [] := by
  rw [settleBlanks]

theorem settleBlanks_hard {x : Char × Bool} (h : isSoftBlank x = false)
    (rest : List (Char × Bool)) :
    settleBlanks atStart atEnd (x :: rest) = x.1 :: settleBlanks false atEnd rest := by
  rw [settleBlanks]
  simp [h]

theorem settleBlanks_blanks {bs rest : List (Char × Bool)} (ne : bs ≠ [])
    (soft : bs.all isSoftBlank = true)
    (stops : rest.head?.all (fun x => !isSoftBlank x) = true) :
    settleBlanks atStart atEnd (bs ++ rest) =
      (if bs.any (fun y => y.1 == '\n') then
          if atStart || (rest.isEmpty && atEnd) then [] else [' ']
        else bs.map Prod.fst) ++ settleBlanks false atEnd rest := by
  obtain ⟨x, bs, rfl⟩ := List.exists_cons_of_ne_nil ne
  simp only [List.all_cons, Bool.and_eq_true] at soft
  have taken := takeWhile_append_of_head? isSoftBlank soft.2 stops
  have left : (bs ++ rest).dropWhile isSoftBlank = rest := by
    have := List.takeWhile_append_dropWhile (p := isSoftBlank) (l := bs ++ rest)
    rw [taken] at this
    exact List.append_cancel_left this
  rw [List.cons_append, settleBlanks]
  simp only [soft.1, if_true, taken, left]

/-- To show a property of all runs, add single characters that are no blanks, and whole series of
blanks. -/
theorem run_induction {motive : List (Char × Bool) → Prop} (nil : motive [])
    (hard : ∀ x rest, isSoftBlank x = false → motive rest → motive (x :: rest))
    (blanks : ∀ bs rest, bs ≠ [] → bs.all isSoftBlank = true →
      rest.head?.all (fun x => !isSoftBlank x) = true → motive rest → motive (bs ++ rest)) :
    ∀ run, motive run
  | [] => nil
  | x :: rest => by
    cases h : isSoftBlank x with
    | false => exact hard x rest h (run_induction nil hard blanks rest)
    | true =>
      have shorter := (List.dropWhile_sublist isSoftBlank (l := rest)).length_le
      have := blanks (x :: rest.takeWhile isSoftBlank) (rest.dropWhile isSoftBlank) (by simp)
        (by simp [h]) ?_ (run_induction nil hard blanks (rest.dropWhile isSoftBlank))
      · rwa [List.cons_append, List.takeWhile_append_dropWhile] at this
      · cases left : rest.dropWhile isSoftBlank with
        | nil => rfl
        | cons y more =>
          have := List.head?_dropWhile_not isSoftBlank rest
          simp_all
  termination_by run => run.length

theorem settleBlanks_lead {bs rest : List (Char × Bool)} (soft : bs.all isSoftBlank = true)
    (breaks : bs.any (fun y => y.1 == '\n') = true)
    (stops : rest.head?.all (fun x => !isSoftBlank x) = true) :
    settleBlanks true atEnd (bs ++ rest) = settleBlanks true atEnd rest := by
  have ne : bs ≠ [] := by rintro rfl; simp at breaks
  rw [settleBlanks_blanks ne soft stops]
  cases rest with
  | nil => simp [breaks, settleBlanks_nil]
  | cons x rest =>
    have hard : isSoftBlank x = false := by simpa using stops
    simp [breaks, settleBlanks_hard hard]

/-! ### Margins -/

def respaceRun (margin : List Char) (run : List (Char × Bool)) : List (Char × Bool) :=
  run.flatMap (fun x =>
    x :: (if x.1 = '\n' ∧ x.2 = false then margin.map (fun d => (d, false)) else []))

theorem ofRun_append (run run' : List (Char × Bool)) :
    Item.ofRun (run ++ run') = Item.ofRun run ++ Item.ofRun run' := List.map_append

theorem flatMap_respaceItem_ofRun (margin : List Char) (run : List (Char × Bool)) :
    (Item.ofRun run).flatMap (respaceItem margin) = Item.ofRun (respaceRun margin run) := by
  induction run with
  | nil => rfl
  | cons x run ih =>
    have cons : Item.ofRun (x :: run) = .char x.1 x.2 :: Item.ofRun run := rfl
    rw [cons, List.flatMap_cons, ih]
    simp only [respaceRun, List.flatMap_cons, ofRun_append]
    congr 1
    simp only [respaceItem]
    split <;> rfl

theorem respaceRun_append (margin : List Char) (run run' : List (Char × Bool)) :
    respaceRun margin (run ++ run') = respaceRun margin run ++ respaceRun margin run' :=
  List.flatMap_append

theorem isSoftBlank_of_isLayoutBlank {c : Char} (h : isLayoutBlank c = true) :
    isSoftBlank (c, false) = true := by
  simp only [isLayoutBlank, Bool.or_eq_true, beq_iff_eq] at h
  rcases h with ((rfl | rfl) | rfl) | rfl <;> decide

variable {margin : List Char}

theorem all_isSoftBlank_map (h : margin.all isLayoutBlank = true) :
    (margin.map (fun d => (d, false))).all isSoftBlank = true := by
  simp only [List.all_eq_true, List.mem_map] at *
  rintro x ⟨d, hd, rfl⟩
  exact isSoftBlank_of_isLayoutBlank (h d hd)

theorem all_isSoftBlank_respaceRun (h : margin.all isLayoutBlank = true)
    {run : List (Char × Bool)} (soft : run.all isSoftBlank = true) :
    (respaceRun margin run).all isSoftBlank = true := by
  induction run with
  | nil => rfl
  | cons x run ih =>
    simp only [List.all_cons, Bool.and_eq_true] at soft
    have := all_isSoftBlank_map h
    simp only [respaceRun, List.flatMap_cons, List.all_append, List.all_cons, Bool.and_eq_true]
    refine ⟨⟨soft.1, ?_⟩, ih soft.2⟩
    split
    · exact this
    · rfl

theorem respaceRun_of_unbroken {run : List (Char × Bool)}
    (h : run.any (fun y => y.1 == '\n') = false) : respaceRun margin run = run := by
  induction run with
  | nil => rfl
  | cons x run ih =>
    simp only [List.any_cons, Bool.or_eq_false_iff, beq_eq_false_iff_ne] at h
    have := ih h.2
    simp only [respaceRun] at this ⊢
    simp [h.1, this]

theorem any_respaceRun {run : List (Char × Bool)} (h : run.any (fun y => y.1 == '\n') = true) :
    (respaceRun margin run).any (fun y => y.1 == '\n') = true := by
  simp only [List.any_eq_true] at *
  obtain ⟨x, hx, hn⟩ := h
  exact ⟨x, by simp only [respaceRun, List.mem_flatMap]; exact ⟨x, hx, by simp⟩, hn⟩

theorem head?_respaceRun (run : List (Char × Bool)) :
    (respaceRun margin run).head? = run.head? := by
  cases run <;> simp [respaceRun]

theorem settleBlanks_respaceRun (h : margin.all isLayoutBlank = true)
    (run : List (Char × Bool)) :
    settleBlanks atStart atEnd (respaceRun margin run) = settleBlanks atStart atEnd run := by
  induction run using run_induction generalizing atStart with
  | nil => rfl
  | hard x rest hard ih =>
    have keeps : ¬ (x.1 = '\n' ∧ x.2 = false) := by
      rintro ⟨h1, h2⟩
      obtain ⟨c, escaped⟩ := x
      obtain rfl : c = '\n' := h1
      obtain rfl : escaped = false := h2
      exact absurd hard (by decide)
    have : respaceRun margin (x :: rest) = x :: respaceRun margin rest := by
      simp [respaceRun, keeps]
    rw [this, settleBlanks_hard hard, settleBlanks_hard hard, ih]
  | blanks bs rest ne soft stops ih =>
    have stops' : (respaceRun margin rest).head?.all (fun x => !isSoftBlank x) = true := by
      rwa [head?_respaceRun]
    have isEmpty : (respaceRun margin rest).isEmpty = rest.isEmpty := by
      cases rest <;> rfl
    have ne' : respaceRun margin bs ≠ [] := by
      obtain ⟨b, bs, rfl⟩ := List.exists_cons_of_ne_nil ne
      simp [respaceRun]
    rw [respaceRun_append, settleBlanks_blanks ne' (all_isSoftBlank_respaceRun h soft) stops',
      settleBlanks_blanks ne soft stops, ih, isEmpty]
    cases breaks : bs.any (fun y => y.1 == '\n') with
    | true => simp [any_respaceRun breaks]
    | false => rw [respaceRun_of_unbroken breaks, breaks]

theorem readRun_respaceRun (h : margin.all isLayoutBlank = true) {running : Bool}
    {run : List (Char × Bool)} {value : List Char}
    (read : readRun running atStart atEnd run = some value) :
    readRun running atStart atEnd (respaceRun margin run) = some value := by
  unfold readRun at *
  cases running with
  | true => rwa [settleBlanks_respaceRun h]
  | false =>
    simp only [Bool.false_eq_true, if_false] at *
    split at read
    · rename_i soft
      rw [if_pos (all_isSoftBlank_respaceRun h soft)]
      exact read
    · simp at read

/-! ### Wrapped texts -/

/-- A text as it may stand in wrapped running text: single blanks become line breaks with a margin,
and blanks with a line break may follow at the end of the content. `blank` tells whether a blank
stands before, or nothing at all. -/
inductive Wraps (margin : List Char) (atEnd : Bool) : Bool → List Char → List (Char × Bool) → Prop
  | nil {blank : Bool} : Wraps margin atEnd blank [] []
  | trail {bs : List (Char × Bool)} (soft : bs.all isSoftBlank = true)
      (breaks : bs.any (fun y => y.1 == '\n') = true) (ends : atEnd = true) :
      Wraps margin atEnd false [] bs
  | keep {blank : Bool} {c : Char} {escaped : Bool} {cs : List Char} {run : List (Char × Bool)}
      (plain : escaped = true ∨ c ≠ '\n') (rest : Wraps margin atEnd (Text.isBlank c) cs run) :
      Wraps margin atEnd blank (c :: cs) ((c, escaped) :: run)
  | gap {cs : List Char} {run : List (Char × Bool)} (inner : cs = [] → atEnd = false)
      (next : cs.head?.all (fun c => !Text.isBlank c) = true)
      (rest : Wraps margin atEnd true cs run) :
      Wraps margin atEnd false (' ' :: cs)
        ((('\n', false) :: margin.map (fun d => (d, false))) ++ run)

namespace Wraps

variable {blank : Bool} {cs : List Char} {run : List (Char × Bool)}

theorem unbroken (h : Wraps margin atEnd blank cs run) (after : blank = true) :
    (run.takeWhile isSoftBlank).any (fun y => y.1 == '\n') = false := by
  induction h with
  | nil => rfl
  | trail => simp at after
  | @keep blank c escaped cs run plain rest ih =>
    cases soft : isSoftBlank (c, escaped) with
    | false => simp [soft]
    | true =>
      simp only [isSoftBlank, Bool.and_eq_true, Bool.not_eq_true'] at soft
      have hc : c ≠ '\n' := plain.resolve_left (by simp [soft.1])
      simp [isSoftBlank, soft.1, soft.2, hc, ih soft.2]
  | gap => simp at after

theorem head_hard (h : Wraps margin atEnd blank cs run) (after : blank = true)
    (next : cs.head?.all (fun c => !Text.isBlank c) = true) :
    run.head?.all (fun x => !isSoftBlank x) = true := by
  cases h with
  | nil => rfl
  | trail => simp at after
  | @keep _ c =>
    have : Text.isBlank c = false := by simpa using next
    simp [isSoftBlank, this]
  | gap => simp at after

end Wraps

theorem settleBlanks_plain {x : Char × Bool} {run : List (Char × Bool)}
    (plain : x.2 = true ∨ x.1 ≠ '\n')
    (unbroken : isSoftBlank x = true →
      (run.takeWhile isSoftBlank).any (fun y => y.1 == '\n') = false) :
    settleBlanks atStart atEnd (x :: run) = x.1 :: settleBlanks false atEnd run := by
  cases soft : isSoftBlank x with
  | false => exact settleBlanks_hard soft run
  | true =>
    have unbroken := unbroken soft
    have hx : x.1 ≠ '\n' := by
      simp only [isSoftBlank, Bool.and_eq_true, Bool.not_eq_true'] at soft
      exact plain.resolve_left (by simp [soft.1])
    have stops : (run.dropWhile isSoftBlank).head?.all (fun x => !isSoftBlank x) = true := by
      cases left : run.dropWhile isSoftBlank with
      | nil => rfl
      | cons y more =>
        have := List.head?_dropWhile_not isSoftBlank run
        simp_all
    have split := List.takeWhile_append_dropWhile (p := isSoftBlank) (l := run)
    have whole : settleBlanks atStart atEnd
        ((x :: run.takeWhile isSoftBlank) ++ run.dropWhile isSoftBlank) = _ :=
      settleBlanks_blanks (by simp) (by simp [soft]) stops
    rw [List.cons_append, split] at whole
    rw [whole]
    by_cases ne : run.takeWhile isSoftBlank = []
    · rw [ne, List.nil_append] at split
      simp [ne, hx, split]
    · have tail : settleBlanks false atEnd
          (run.takeWhile isSoftBlank ++ run.dropWhile isSoftBlank) = _ :=
        settleBlanks_blanks ne (by simp) stops
      rw [split, unbroken] at tail
      simp [tail, hx, unbroken]

/-- A wrapped text settles to what it was. -/
theorem Wraps.settle (hm : margin.all isLayoutBlank = true) {blank : Bool} {cs : List Char}
    {run : List (Char × Bool)} (h : Wraps margin atEnd blank cs run)
    (start : atStart = true → blank = true) : settleBlanks atStart atEnd run = cs := by
  induction h generalizing atStart with
  | nil => exact settleBlanks_nil
  | @trail bs soft breaks ends =>
    have ne : bs ≠ [] := by rintro rfl; simp at breaks
    have whole : settleBlanks atStart atEnd (bs ++ []) = _ := settleBlanks_blanks ne soft rfl
    simpa [breaks, ends, settleBlanks_nil] using whole
  | @keep blank c escaped cs run plain rest ih =>
    rw [settleBlanks_plain plain, ih (by simp)]
    intro soft
    simp only [isSoftBlank, Bool.and_eq_true] at soft
    exact rest.unbroken soft.2
  | @gap cs run inner next rest ih =>
    have notStart : atStart = false := by
      cases atStart with
      | false => rfl
      | true => exact absurd (start rfl) (by simp)
    have goesOn : (run.isEmpty && atEnd) = false := by
      cases rest with
      | nil => simp [inner rfl]
      | _ => rfl
    rw [settleBlanks_blanks (by simp) _ (rest.head_hard rfl next), ih (by simp)]
    · simp [notStart, goesOn]
    · rw [List.all_cons, all_isSoftBlank_map hm]
      rfl

end Markup

open Markup

/-! ### Margins between tags -/

section

variable {margin : List Char}

theorem LeadsIn.respace (hm : margin.all isLayoutBlank = true) {running first : Bool} {t : Tag}
    {lead : List Item} (h : LeadsIn running first t lead) :
    LeadsIn running first t (lead.flatMap (respaceItem margin)) := by
  have item : [branchItem t].flatMap (respaceItem margin) = [branchItem t] := by
    cases t <;> rfl
  have plain : lead = [branchItem t] → lead.flatMap (respaceItem margin) = [branchItem t] := by
    rintro rfl
    exact item
  have spaced : (∃ run, lead = Item.ofRun run ++ [branchItem t] ∧
      readRun running true true run = some []) →
      ∃ run, lead.flatMap (respaceItem margin) = Item.ofRun run ++ [branchItem t] ∧
        readRun running true true run = some [] := by
    rintro ⟨run, rfl, nothing⟩
    refine ⟨respaceRun margin run, ?_, readRun_respaceRun hm nothing⟩
    rw [List.flatMap_append, flatMap_respaceItem_ofRun, item]
  cases first with
  | false => cases t <;> exact plain h
  | true =>
    cases t with
    | statement s =>
      obtain rfl : lead = [] := h
      rfl
    | _ => exact spaced h

/-- Whether items that tell the forest still do after a margin has been put in behind their line
breaks. -/
def Forest.KeepsRespaced (margin : List Char) (cs : Forest Tag) : Prop :=
  (∀ {running fresh apart : Bool} {is : List Item}, Forest.Told running fresh apart cs is →
    Forest.Told running fresh apart cs (is.flatMap (respaceItem margin))) ∧
  ∀ {running first : Bool} {is : List Item}, Forest.ToldAsBranches running first cs is →
    Forest.ToldAsBranches running first cs (is.flatMap (respaceItem margin))

theorem Forest.KeepsRespaced.node {cs : Forest Tag} (h : Forest.KeepsRespaced margin cs)
    {running : Bool} {t : Tag} {e : Extra} {is : List Item}
    (told : Node.Told running ⟨t, e, cs⟩ is) :
    Node.Told running ⟨t, e, cs⟩ (is.flatMap (respaceItem margin)) := by
  by_cases conditional : t = .conditional
  · subst conditional
    rcases told with ⟨rfl, bareChain⟩ | ⟨body, rfl, filled, told⟩
    · exact .inl ⟨rfl, bareChain⟩
    · refine .inr ⟨_, ?_, filled, h.2 told⟩
      simp [respaceItem]
  · rw [Node.told_plain conditional] at told ⊢
    rcases told with ⟨rfl, rfl⟩ | ⟨body, rfl, filled, told⟩
    · exact .inl ⟨rfl, rfl⟩
    · refine .inr ⟨_, ?_, filled, h.1 told⟩
      simp [respaceItem]

theorem Forest.keepsRespaced (hm : margin.all isLayoutBlank = true) (cs : Forest Tag) :
    Forest.KeepsRespaced margin cs := by
  induction cs using Forest.induction with
  | nil =>
    constructor
    · rintro running fresh apart is ⟨run, rfl, none, nothing⟩
      refine ⟨respaceRun margin run, flatMap_respaceItem_ofRun margin run, fun h => ?_,
        readRun_respaceRun hm nothing⟩
      rw [none h]
      rfl
    · rintro running first is rfl
      rfl
  | cons t e cs rest hcs hrest =>
    constructor
    · intro running fresh apart is told
      cases text : t.isText with
      | true =>
        obtain ⟨value, rfl⟩ := Tag.eq_text_of_isText text
        obtain ⟨run, js, rfl, apart, settled, told⟩ := told
        refine ⟨respaceRun margin run, _, ?_, apart, readRun_respaceRun hm settled,
          hrest.1 told⟩
        rw [List.flatMap_append, flatMap_respaceItem_ofRun]
      | false =>
        rw [Forest.told_cons text] at told ⊢
        obtain ⟨run, ns, js, rfl, none, nothing, node, told⟩ := told
        refine ⟨respaceRun margin run, _, _, ?_, fun h => ?_, readRun_respaceRun hm nothing,
          hcs.node node, hrest.1 told⟩
        · rw [List.flatMap_append, List.flatMap_append, flatMap_respaceItem_ofRun]
        · rw [none h]
          rfl
    · rintro running first is ⟨lead, body, js, rfl, leads, toldBody, told⟩
      exact ⟨_, _, _, by rw [List.flatMap_append, List.flatMap_append], LeadsIn.respace hm leads,
        hcs.1 toldBody, hrest.2 told⟩

theorem Node.Told.respace (hm : margin.all isLayoutBlank = true) {running : Bool} {n : Node Tag}
    {is : List Item} (told : n.Told running is) :
    n.Told running (is.flatMap (respaceItem margin)) := by
  obtain ⟨t, e, cs⟩ := n
  exact (Forest.keepsRespaced hm cs).node told

end

/-! ### Blanks in front -/

/-- Blanks in front of a run come to nothing, in running text where they break a line at the start
of the content. -/
theorem Markup.readRun_blanks {running fresh atEnd : Bool} {bs run : List (Char × Bool)}
    (soft : bs.all isSoftBlank = true)
    (lead : running = true → fresh = true ∧ bs.any (fun y => y.1 == '\n') = true ∧
      run.head?.all (fun x => !isSoftBlank x) = true) :
    readRun running fresh atEnd (bs ++ run) = readRun running fresh atEnd run := by
  cases running with
  | false =>
    have : (bs ++ run).all isSoftBlank = run.all isSoftBlank := by rw [List.all_append, soft]; rfl
    simp only [readRun, this, Bool.false_eq_true, if_false]
  | true =>
    obtain ⟨rfl, breaks, stops⟩ := lead rfl
    simp [readRun, settleBlanks_lead soft breaks stops]

/-- Whether the item is a blank that the reader may take back. -/
def Markup.Item.isSoft : Item → Bool
  | .char c escaped => isSoftBlank (c, escaped)
  | _ => false

theorem Markup.Item.head?_ofRun_hard {run : List (Char × Bool)} {is : List Item}
    (h : (Item.ofRun run ++ is).head?.all (fun i => !i.isSoft) = true) :
    run.head?.all (fun x => !isSoftBlank x) = true := by
  cases run with
  | nil => rfl
  | cons x run => simpa [Item.ofRun, Item.isSoft] using h

theorem Forest.Told.blanks {running fresh : Bool} {cs : Forest Tag} {bs : List (Char × Bool)}
    {is : List Item} (soft : bs.all isSoftBlank = true)
    (lead : running = true → fresh = true ∧ bs.any (fun y => y.1 == '\n') = true ∧
      is.head?.all (fun i => !i.isSoft) = true)
    (told : Forest.Told running fresh true cs is) :
    Forest.Told running fresh true cs (Item.ofRun bs ++ is) := by
  have taken : ∀ {run : List (Char × Bool)} (js : List Item) (atEnd : Bool),
      is = Item.ofRun run ++ js →
      readRun running fresh atEnd (bs ++ run) = readRun running fresh atEnd run := by
    rintro run js atEnd rfl
    refine readRun_blanks soft fun h => ?_
    obtain ⟨fresh, breaks, stops⟩ := lead h
    exact ⟨fresh, breaks, Item.head?_ofRun_hard stops⟩
  rcases cs with _ | ⟨⟨t, e, cs⟩, rest⟩
  · obtain ⟨run, his, -, nothing⟩ := told
    refine ⟨bs ++ run, by rw [ofRun_append, his], by simp, ?_⟩
    rw [taken [] true (by rw [his, List.append_nil]), nothing]
  · cases text : t.isText with
    | true =>
      obtain ⟨value, rfl⟩ := Tag.eq_text_of_isText text
      obtain ⟨run, js, his, apart, settled, told⟩ := told
      refine ⟨bs ++ run, js, by rw [ofRun_append, List.append_assoc, his], apart, ?_, told⟩
      rw [taken js rest.isEmpty his, settled]
    | false =>
      rw [Forest.told_cons text] at told ⊢
      obtain ⟨run, ns, js, his, -, nothing, node, told⟩ := told
      refine ⟨bs ++ run, ns, js, by rw [ofRun_append, List.append_assoc, his], by simp, ?_, node,
        told⟩
      rw [taken (ns ++ js) false his, nothing]

end WorldMarkup
