import WorldMarkup.Layout.Wrap
import WorldMarkup.Proofs.Layout.Elements
import WorldMarkup.Proofs.Markup.Blanks

/-!
Wrapped running text. Filling lines with chunks only turns gaps into line breaks. Main statement:
running text with any of its gaps broken, and a margin behind each break, still tells the forest
it was made of.
-/

set_option autoImplicit false
set_option relaxedAutoImplicit false

namespace WorldMarkup.Layout

open Markup

/-! ### Chunks and lines -/

/-- Chunks put together again, with a space or a line break between any two. -/
inductive Joined : List (List Char) → List Char → Prop
  | single (c : List Char) : Joined [c] c
  | cons {c t : List Char} {cs : List (List Char)} {sep : Char} (h : sep = ' ' ∨ sep = '\n')
      (rest : Joined cs t) : Joined (c :: cs) (c ++ sep :: t)

theorem Joined.space {c d t : List Char} {cs : List (List Char)}
    (h : Joined ((c ++ ' ' :: d) :: cs) t) : Joined (c :: d :: cs) t := by
  generalize hx : (c ++ ' ' :: d) :: cs = chunks at h
  cases h with
  | single e =>
    obtain ⟨rfl, rfl⟩ := List.cons.inj hx
    exact .cons (.inl rfl) (.single d)
  | @cons e t es sep h rest =>
    obtain ⟨rfl, rfl⟩ := List.cons.inj hx
    have := Joined.cons (c := c) (.inl rfl) (.cons (c := d) h rest)
    simpa using this

theorem fillFrom_ne_nil (budget : Nat) {line : List Char} (h : line ≠ [])
    (chunks : List (List Char)) : fillFrom budget line chunks ≠ [] := by
  induction chunks generalizing line with
  | nil => simp [fillFrom, h]
  | cons c rest ih =>
    rw [fillFrom]
    simp only [List.isEmpty_iff, h, if_false]
    split
    · exact ih (by simp)
    · simp

theorem joined_fillFrom (budget : Nat) (line : List Char) (ne : line ≠ [])
    {chunks : List (List Char)} (full : [] ∉ chunks) :
    Joined (line :: chunks) (unlines (fillFrom budget line chunks)) := by
  induction chunks generalizing line with
  | nil =>
    have : unlines [line] = line := List.intercalate_singleton
    simp only [fillFrom, List.isEmpty_iff, ne, if_false, this]
    exact .single line
  | cons c rest ih =>
    simp only [List.mem_cons, not_or] at full
    have hc : c ≠ [] := Ne.symm full.1
    rw [fillFrom]
    simp only [List.isEmpty_iff, ne, if_false]
    split
    · exact (ih (line ++ ' ' :: c) (by simp) full.2).space
    · rw [unlines_cons (fillFrom_ne_nil budget hc rest)]
      exact .cons (.inr rfl) (ih c hc full.2)

theorem joined_fill (budget : Nat) {chunks : List (List Char)} (ne : chunks ≠ [])
    (full : [] ∉ chunks) : Joined chunks (unlines (fill budget chunks)) := by
  obtain ⟨c, rest, rfl⟩ := List.exists_cons_of_ne_nil ne
  simp only [List.mem_cons, not_or] at full
  have := joined_fillFrom budget c (Ne.symm full.1) full.2
  rwa [fill, fillFrom]

/-! ### Pieces -/

def Piece.IsSound : Piece → Prop
  | .char _ => True
  | .atom out => IsTagLine out

theorem escapeTextChar_oneLine (c : Char) : '\n' ∉ escapeTextChar c := by
  unfold escapeTextChar
  split
  · decide
  · decide
  · decide
  · decide
  · simp only [List.mem_singleton]
    exact Ne.symm (by assumption)

theorem spells_escapeTextChar (c : Char) :
    ∃ escaped, (escaped = true ∨ c ≠ '\n') ∧ Spells (escapeTextChar c) [.char c escaped] := by
  unfold escapeTextChar
  split
  · exact ⟨true, .inl rfl, .escaped (by decide) .nil⟩
  · exact ⟨true, .inl rfl, .escaped (by decide) .nil⟩
  · exact ⟨true, .inl rfl, .escaped (by decide) .nil⟩
  · exact ⟨true, .inl rfl, .escaped (by decide) .nil⟩
  · exact ⟨false, .inr (by assumption), .plain ⟨by assumption, by assumption⟩ .nil⟩

theorem escapeTextChar_ends {c : Char} (h : Text.isBlank c = false) :
    (∃ d, (escapeTextChar c).head? = some d ∧ Text.isBlank d = false) ∧
      mayEnd (escapeTextChar c).getLast? = true := by
  unfold escapeTextChar
  split
  · exact ⟨⟨_, rfl, by decide⟩, by decide⟩
  · exact ⟨⟨_, rfl, by decide⟩, by decide⟩
  · exact ⟨⟨_, rfl, by decide⟩, by decide⟩
  · exact ⟨⟨_, rfl, by decide⟩, by decide⟩
  · refine ⟨⟨c, rfl, h⟩, ?_⟩
    have hr : c ≠ '\r' := by
      rintro rfl
      exact absurd h (by decide)
    have hn : c ≠ '\n' := by assumption
    simp [mayEnd, hr, hn]

namespace Piece

variable {p : Piece}

theorem oneLine_written (sound : p.IsSound) : '\n' ∉ p.written := by
  cases p with
  | char c => exact escapeTextChar_oneLine c
  | atom out => exact sound.oneLine

theorem ends_written (sound : p.IsSound) (h : p.isBlank = false) :
    (∃ d, p.written.head? = some d ∧ Text.isBlank d = false) ∧
      mayEnd p.written.getLast? = true := by
  cases p with
  | char c => exact escapeTextChar_ends h
  | atom out => exact ⟨⟨_, sound.head, by decide⟩, by rw [written, sound.last]; decide⟩

theorem written_ne_nil (some : p ≠ .atom []) : p.written ≠ [] := by
  cases p with
  | char c =>
    show escapeTextChar c ≠ []
    unfold escapeTextChar
    split <;> simp
  | atom out => simpa [written] using some

theorem IsSound.ne_atom_nil (sound : p.IsSound) : p ≠ .atom [] := by
  rintro rfl
  simpa using sound.head

end Piece

theorem chunksFrom_ne_nil (blank : Bool) (ps : List Piece) : chunksFrom blank ps ≠ [] := by
  cases ps with
  | nil => simp [chunksFrom]
  | cons p rest =>
    rw [chunksFrom]
    split
    · simp
    · split <;> simp

theorem chunksFrom_cons (blank : Bool) (p : Piece) (rest : List Piece) :
    ∃ c cs, chunksFrom p.isBlank rest = c :: cs ∧
      chunksFrom blank (p :: rest) =
        if p.isGap blank rest then [] :: c :: cs else (p.written ++ c) :: cs := by
  obtain ⟨c, cs, h⟩ := List.exists_cons_of_ne_nil (chunksFrom_ne_nil p.isBlank rest)
  refine ⟨c, cs, h, ?_⟩
  rw [chunksFrom, h]

theorem chunksFrom_full {ps : List Piece} (some : .atom [] ∉ ps) (blank : Bool) :
    ∃ c cs, chunksFrom blank ps = c :: cs ∧ [] ∉ cs ∧
      (ps.head?.any (fun p => !p.isBlank || blank) = true → c ≠ []) := by
  induction ps generalizing blank with
  | nil => exact ⟨[], [], rfl, by simp, by simp⟩
  | cons p rest ih =>
    rw [List.mem_cons, not_or] at some
    obtain ⟨c, cs, h, cons⟩ := chunksFrom_cons blank p rest
    obtain ⟨c', cs', h', full, first⟩ := ih some.2 p.isBlank
    rw [h] at h'
    obtain ⟨rfl, rfl⟩ := List.cons.inj h'
    rw [cons]
    split
    · rename_i gap
      simp only [Piece.isGap, Bool.and_eq_true, beq_iff_eq, Bool.not_eq_true'] at gap
      obtain ⟨⟨rfl, rfl⟩, next⟩ := gap
      refine ⟨[], c :: cs, rfl, ?_, by simp [Piece.isBlank, show Text.isBlank ' ' = true from rfl]⟩
      have hc : c ≠ [] := first (by
        cases rest with
        | nil => simp at next
        | cons q rest => simp_all)
      simp only [List.mem_cons, not_or]
      exact ⟨Ne.symm hc, full⟩
    · exact ⟨_, _, rfl, full, fun _ => by simp [Piece.written_ne_nil (Ne.symm some.1)]⟩

theorem nil_notMem_chunksFrom {ps : List Piece} (ne : ps ≠ []) (some : .atom [] ∉ ps) :
    [] ∉ chunksFrom true ps := by
  obtain ⟨c, cs, chunks, full, first⟩ := chunksFrom_full some true
  obtain ⟨p, ps, rfl⟩ := List.exists_cons_of_ne_nil ne
  rw [chunks, List.mem_cons, not_or]
  exact ⟨Ne.symm (first (by simp)), full⟩

/-! ### Broken running text -/

/-- Pieces as they are written with some of the gaps broken: a line break and a margin stand there.
`tail` follows the last piece, which must then be no blank. `blank` tells whether a blank stands
before the pieces, or nothing at all. -/
inductive Broken (margin tail : List Char) : Bool → List Piece → List Char → Prop
  | nil {blank : Bool} (h : tail = [] ∨ blank = false) : Broken margin tail blank [] tail
  | keep {blank : Bool} {p : Piece} {ps : List Piece} {cs : List Char}
      (rest : Broken margin tail p.isBlank ps cs) :
      Broken margin tail blank (p :: ps) (p.written ++ cs)
  | gap {p : Piece} {ps : List Piece} {cs : List Char} (h : p.isGap false ps = true)
      (rest : Broken margin tail true ps cs) :
      Broken margin tail false (p :: ps) ('\n' :: (margin ++ cs))

theorem isBlank_of_isGap {p : Piece} {blank : Bool} {rest : List Piece}
    (h : p.isGap blank rest = true) : p = .char ' ' ∧ blank = false ∧
      rest.head?.any (fun q => !q.isBlank) = true := by
  simp only [Piece.isGap, Bool.and_eq_true, beq_iff_eq, Bool.not_eq_true'] at h
  refine ⟨h.1.1, h.1.2, ?_⟩
  cases rest with
  | nil => simp at h
  | cons q rest => simpa using h.2

namespace Broken

variable {margin tail : List Char} {blank : Bool} {ps : List Piece} {cs : List Char}

theorem unbroken (margin : List Char) (blank : Bool) (ps : List Piece) :
    Broken margin [] blank ps (ps.flatMap Piece.written) := by
  induction ps generalizing blank with
  | nil => exact .nil (.inl rfl)
  | cons p ps ih => exact .keep (ih p.isBlank)

theorem of_joined (h : Joined (chunksFrom blank ps) cs) : Broken [] [] blank ps cs := by
  induction ps generalizing blank cs with
  | nil =>
    cases h with
    | single => exact .nil (.inl rfl)
    | cons _ rest => cases rest
  | cons p ps ih =>
    obtain ⟨c, cs', chunks, cons⟩ := chunksFrom_cons blank p ps
    rw [cons] at h
    split at h
    · rename_i gap
      obtain ⟨rfl, rfl, -⟩ := isBlank_of_isGap gap
      cases h with
      | @cons _ t _ sep hsep rest =>
        rw [← chunks] at rest
        rcases hsep with rfl | rfl
        · exact .keep (ih rest)
        · exact .gap gap (ih rest)
    · generalize hx : (p.written ++ c) :: cs' = chunks' at h
      cases h with
      | single d =>
        obtain ⟨rfl, rfl⟩ := List.cons.inj hx
        exact .keep (ih (chunks ▸ .single c))
      | @cons d t ds sep hsep rest =>
        obtain ⟨rfl, rfl⟩ := List.cons.inj hx
        rw [List.append_assoc]
        exact .keep (ih (chunks ▸ .cons hsep rest))

theorem respace (margin : List Char) (sound : ∀ p ∈ ps, p.IsSound)
    (h : Broken [] [] blank ps cs) : Broken margin [] blank ps (Markup.respace margin cs) := by
  induction h with
  | nil h => exact .nil (.inl rfl)
  | @keep blank p ps cs rest ih =>
    simp only [List.mem_cons, forall_eq_or_imp] at sound
    rw [respace_append, respace_of_oneLine (Piece.oneLine_written sound.1)]
    exact .keep (ih sound.2)
  | @gap p ps cs h rest ih =>
    simp only [List.mem_cons, forall_eq_or_imp] at sound
    have := Broken.gap h (ih sound.2)
    simpa [Markup.respace] using this

theorem append_tail (tail : List Char) (h : Broken margin [] blank ps cs)
    (last : ps.getLast?.all (fun p => !p.isBlank) = true) (start : ps = [] → blank = false) :
    Broken margin tail blank ps (cs ++ tail) := by
  induction h with
  | nil h => exact .nil (.inr (start rfl))
  | @keep blank p ps cs rest ih =>
    rw [List.append_assoc]
    cases ps with
    | nil => exact .keep (ih rfl (fun _ => by simpa using last))
    | cons q ps => exact .keep (ih (by simpa using last) (by simp))
  | @gap p ps cs h rest ih =>
    have next := (isBlank_of_isGap h).2.2
    cases ps with
    | nil => simp at next
    | cons q ps =>
      have := ih (by simpa using last) (by simp)
      simpa using Broken.gap h this

theorem head_nonblank {p : Piece} (h : Broken margin tail blank (p :: ps) cs) (sound : p.IsSound)
    (first : p.isBlank = false) : ∃ d, cs.head? = some d ∧ Text.isBlank d = false := by
  obtain ⟨d, head, nonblank⟩ := (Piece.ends_written sound first).1
  cases h with
  | keep rest => exact ⟨d, by rw [List.head?_append, head]; rfl, nonblank⟩
  | gap gap rest =>
    obtain ⟨rfl, -⟩ := isBlank_of_isGap gap
    exact absurd first (by decide)

theorem isTidy {a : Option Char} (sound : ∀ p ∈ ps, p.IsSound) (h : Broken [] [] blank ps cs)
    (last : ps.getLast?.all (fun p => !p.isBlank) = true)
    (start : blank = false → mayEnd a = true) (ne : ps = [] → mayEnd a = true) :
    Layout.isTidy a cs = true := by
  induction h generalizing a with
  | nil => exact ne rfl
  | @keep blank p ps cs rest ih =>
    simp only [List.mem_cons, forall_eq_or_imp] at sound
    have after : p.isBlank = false → mayEnd (p.written.getLast?.or a) = true := by
      intro nonblank
      have hc := List.getLast?_eq_some_getLast (Piece.written_ne_nil sound.1.ne_atom_nil)
      have := (Piece.ends_written sound.1 nonblank).2
      rw [hc] at this ⊢
      exact this
    refine isTidy_append_oneLine (Piece.oneLine_written sound.1) (ih sound.2 ?_ after ?_)
    · cases ps with
      | nil => rfl
      | cons q ps => simpa using last
    · rintro rfl
      exact after (by simpa using last)
  | @gap p ps cs h rest ih =>
    simp only [List.mem_cons, forall_eq_or_imp] at sound
    have next := (isBlank_of_isGap h).2.2
    cases ps with
    | nil => simp at next
    | cons q ps =>
      simp only [List.nil_append, Layout.isTidy, start rfl, Bool.or_true, Bool.true_and]
      exact ih sound.2 (by simpa using last) (by simp) (by simp)

end Broken

/-! ### Forests of running text -/

/-- The pieces of a forest of running text: the characters of its texts, and its other nodes as
tags on one line. -/
def PiecesOf : Forest Tag → List Piece → Prop
  | [], ps => ps = []
  | ⟨.text value, _, _⟩ :: rest, ps =>
    ∃ more, ps = value.toList.map .char ++ more ∧ PiecesOf rest more
  | n :: rest, ps => ∃ out is more, ps = .atom out :: more ∧ IsTagLine out ∧ Spells out is ∧
    n.Told true is ∧ PiecesOf rest more

theorem piecesOf_cons {t : Tag} (text : t.isText = false) (e : Extra) (cs rest : Forest Tag)
    (ps : List Piece) :
    PiecesOf (⟨t, e, cs⟩ :: rest) ps ↔ ∃ out is more, ps = .atom out :: more ∧ IsTagLine out ∧
      Spells out is ∧ Node.Told true ⟨t, e, cs⟩ is ∧ PiecesOf rest more := by
  cases t with
  | text value => simp [Tag.isText, Tag.text?] at text
  | _ => rfl

theorem PiecesOf.sound {cs : Forest Tag} {ps : List Piece} (h : PiecesOf cs ps) :
    ∀ p ∈ ps, p.IsSound := by
  induction cs generalizing ps with
  | nil =>
    obtain rfl : ps = [] := h
    simp
  | cons n rest ih =>
    obtain ⟨t, e, cs⟩ := n
    cases text : t.isText with
    | true =>
      obtain ⟨value, rfl⟩ := Tag.eq_text_of_isText text
      obtain ⟨more, rfl, h⟩ := h
      intro p hp
      rcases List.mem_append.mp hp with hp | hp
      · obtain ⟨c, -, rfl⟩ := List.mem_map.mp hp
        trivial
      · exact ih h p hp
    | false =>
      obtain ⟨out, is, more, rfl, line, -, -, h⟩ := (piecesOf_cons text ..).mp h
      simp only [List.mem_cons, forall_eq_or_imp]
      exact ⟨line, ih h⟩

section

variable {margin tail : List Char}

/-- The characters of a text, broken at some gaps, are a wrapped text. -/
theorem wraps_of_broken (hm : margin.all isLayoutBlank = true) (ht : tail.all isLayoutBlank = true)
    (breaks : tail ≠ [] → '\n' ∈ tail) (value : List Char) (more : List Piece)
    (next : more.head?.all (fun p => !p.isBlank) = true) {blank : Bool} {cs : List Char}
    (h : Broken margin tail blank (value.map .char ++ more) cs) :
    ∃ cs₁ cs₂ run, cs = cs₁ ++ cs₂ ∧ Spells cs₁ (Item.ofRun run) ∧
      Wraps margin more.isEmpty blank value run ∧ (more = [] → cs₂ = []) ∧
      (more ≠ [] → ∃ blank', Broken margin tail blank' more cs₂) := by
  induction value generalizing blank cs with
  | nil =>
    cases more with
    | nil =>
      cases h with
      | nil h =>
        refine ⟨tail, [], tail.map (fun d => (d, false)), by simp, spells_blanks ht, ?_, by simp,
          by simp⟩
        by_cases ne : tail = []
        · subst ne
          exact .nil
        · obtain rfl := h.resolve_left ne
          exact .trail (all_isSoftBlank_map ht) (by simpa using breaks ne) rfl
    | cons p more => exact ⟨[], cs, [], by simp, .nil, .nil, by simp, fun _ => ⟨blank, h⟩⟩
  | cons c value ih =>
    rw [List.map_cons, List.cons_append] at h
    generalize hp : Piece.char c = p at h
    cases h with
    | keep rest =>
      subst hp
      obtain ⟨escaped, plain, spells⟩ := spells_escapeTextChar c
      obtain ⟨cs₁, cs₂, run, rfl, spells', wraps, last, goesOn⟩ := ih rest
      refine ⟨escapeTextChar c ++ cs₁, cs₂, (c, escaped) :: run, by simp [Piece.written],
        spells.append spells', .keep plain wraps, last, goesOn⟩
    | gap gap rest =>
      obtain ⟨rfl, -, after⟩ := isBlank_of_isGap gap
      obtain rfl : c = ' ' := by simpa using hp
      obtain ⟨cs₁, cs₂, run, rfl, spells', wraps, last, goesOn⟩ := ih rest
      refine ⟨'\n' :: (margin ++ cs₁), cs₂, _, by simp, ?_, .gap ?_ ?_ wraps, last, goesOn⟩
      · have := (Spells.plain (c := '\n') (by decide) (spells_blanks hm)).append spells'
        simpa [Item.ofRun] using this
      · rintro rfl
        cases more with
        | nil => simp at after
        | cons p more => rfl
      · cases value with
        | nil => rfl
        | cons d value => simpa [Piece.isBlank] using after

/-- Running text broken at some gaps tells the forest it was made of. -/
theorem told_of_broken (hm : margin.all isLayoutBlank = true)
    (ht : tail.all isLayoutBlank = true) (breaks : tail ≠ [] → '\n' ∈ tail) {cs : Forest Tag}
    (writable : Forest.IsWritable true cs) {ps : List Piece} (pieces : PiecesOf cs ps)
    {blank : Bool} (fresh apart : Bool) {out : List Char} (h : Broken margin tail blank ps out)
    (start : fresh = true → blank = true)
    (after : apart = false →
      cs.head?.all (fun m => !m.data.isText) = true ∧ (cs = [] → out = [])) :
    ∃ is, Spells out is ∧ Forest.Told true fresh apart cs is := by
  induction cs generalizing ps blank fresh apart out with
  | nil =>
    obtain rfl : ps = [] := pieces
    obtain ⟨cs₁, cs₂, run, rfl, spells, wraps, last, -⟩ :=
      wraps_of_broken hm ht breaks [] [] rfl h
    obtain rfl := last rfl
    rw [List.append_nil] at after ⊢
    refine ⟨_, spells, run, rfl, fun ha => ?_, ?_⟩
    · obtain rfl := (after ha).2 rfl
      cases run with
      | nil => rfl
      | cons x run => simp only [Item.ofRun, List.map_cons] at spells; cases spells
    · exact congrArg some (wraps.settle hm start)
  | cons n rest ih =>
    obtain ⟨t, e, cs⟩ := n
    obtain ⟨node, apartText, writable⟩ := writable
    cases text : t.isText with
    | true =>
      obtain ⟨value, rfl⟩ := Tag.eq_text_of_isText text
      have noText := apartText rfl
      obtain ⟨more, rfl, pieces⟩ := pieces
      have apart : apart = true := by
        cases apart with
        | true => rfl
        | false => exact absurd (after rfl).1 (by simp [Tag.isText, Tag.text?])
      have next : more.head?.all (fun p => !p.isBlank) = true ∧ (more = [] ↔ rest = []) := by
        rcases rest with _ | ⟨⟨t', e', cs'⟩, rest⟩
        · obtain rfl : more = [] := pieces
          simp
        · have text' : t'.isText = false := by simpa using noText
          obtain ⟨out', is', more', rfl, -⟩ := (piecesOf_cons text' ..).mp pieces
          simp [Piece.isBlank]
      obtain ⟨out₁, out₂, run, rfl, spells, wraps, last, goesOn⟩ :=
        wraps_of_broken hm ht breaks value.toList more next.1 h
      -- the text goes on up to the next piece that is no character, where the rest begins
      have tailTold : ∃ is, Spells out₂ is ∧ Forest.Told true false false rest is := by
        by_cases ne : more = []
        · obtain rfl := next.2.mp ne
          obtain rfl := last ne
          exact ⟨[], .nil, [], rfl, by simp, by simp [readRun, settleBlanks_nil]⟩
        · obtain ⟨blank', goesOn⟩ := goesOn ne
          exact ih writable pieces false false goesOn (by simp)
            (fun _ => ⟨noText, fun h => absurd (next.2.mpr h) ne⟩)
      obtain ⟨is, spells', told⟩ := tailTold
      refine ⟨_, spells.append spells', run, is, rfl, apart, ?_, told⟩
      have isEmpty : more.isEmpty = rest.isEmpty := by
        rw [Bool.eq_iff_iff, List.isEmpty_iff, List.isEmpty_iff]
        exact next.2
      simp only [readRun, if_true]
      rw [← isEmpty, wraps.settle hm start]
    | false =>
      obtain ⟨line, ns, more, rfl, -, spells, toldNode, pieces⟩ :=
        (piecesOf_cons text ..).mp pieces
      cases h with
      | @keep _ _ _ out₂ broken =>
        obtain ⟨is, spells', told⟩ := ih writable pieces false true broken (by simp) (by simp)
        refine ⟨_, spells.append spells', (Forest.told_cons text ..).mpr
          ⟨[], ns, is, rfl, by simp, by simp [readRun, settleBlanks_nil], toldNode, told⟩⟩
      | gap gap rest => exact absurd (isBlank_of_isGap gap).1 (by simp)

end

end WorldMarkup.Layout
