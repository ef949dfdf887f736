import WorldMarkup.Proofs.Layout.Lines

/-!
Written tags. Main statements: an opening tag on one line or over several, with or without
content, spells its element; on one line it breaks no line, and over several it is a tidy block.
-/

set_option autoImplicit false
set_option relaxedAutoImplicit false

namespace WorldMarkup.Layout

open Markup

/-- One or several tags on one line. -/
structure IsTagLine (out : List Char) : Prop where
  head : out.head? = some '<'
  last : out.getLast? = some '>'
  oneLine : '\n' ∉ out

theorem IsTagLine.isTidy {out : List Char} (h : IsTagLine out) (a : Option Char) :
    isTidy a out = true := by
  obtain ⟨front, rfl⟩ : ∃ front, out = front ++ ['>'] := List.getLast?_eq_some_iff.mp h.last
  exact isTidy_oneLine (fun hn => h.oneLine (by simp [hn])) (by decide)

theorem IsTagLine.between {opening closing content : List Char} (h : IsTagLine opening)
    (h' : IsTagLine closing) (oneLine : '\n' ∉ content) :
    IsTagLine (opening ++ content ++ closing) where
  head := by
    rw [List.head?_append, List.head?_append, h.head]
    rfl
  last := by
    rw [List.getLast?_append, h'.last]
    rfl
  oneLine := by
    simp only [List.mem_append, not_or]
    exact ⟨⟨h.oneLine, oneLine⟩, h'.oneLine⟩

/-! ### Properties -/

theorem tagTail_inline (selfClosing : Bool) (ps : List Property) {bs : List Char}
    (blank : bs.all isLayoutBlank = true) :
    TagTail selfClosing ps
      (ps.flatMap (fun p => ' ' :: p.render) ++ (bs ++ endSign selfClosing)) := by
  induction ps with
  | nil => exact .done blank
  | cons p ps ih =>
    have blank : [' '].all isLayoutBlank = true := by decide
    simpa using TagTail.property (by simp) blank (p := p) ih

theorem tagTail_block (selfClosing : Bool) (ps : List Property) {margin : List Char}
    (hm : margin.all isLayoutBlank = true) :
    TagTail selfClosing ps
      (ps.flatMap (fun p => '\n' :: (margin ++ p.render)) ++ '\n' :: endSign selfClosing) := by
  induction ps with
  | nil =>
    have blank : ['\n'].all isLayoutBlank = true := by decide
    exact .done blank
  | cons p ps ih =>
    have hb : ('\n' :: margin).all isLayoutBlank = true := by
      rw [List.all_cons, hm]
      rfl
    simpa using TagTail.property (by simp) hb (p := p) ih

section

variable {e : Element} {margin : List Char}

def openingItem (e : Element) (selfClosing : Bool) : Item :=
  .opening e.name (.ofProperties e.properties) selfClosing

theorem spells_opening (sound : e.IsSound) : Spells e.opening [openingItem e false] := by
  have blank : [].all isLayoutBlank = true := rfl
  have := Spells.opening sound (tagTail_inline false e.properties blank) .nil
  simpa [Element.opening, Element.propertiesInline, endSign, openingItem] using this

theorem spells_selfClosing (sound : e.IsSound) : Spells e.selfClosing [openingItem e true] := by
  have blank : [' '].all isLayoutBlank = true := by decide
  have := Spells.opening sound (tagTail_inline true e.properties blank) .nil
  simpa [Element.selfClosing, Element.propertiesInline, endSign, openingItem] using this

theorem spells_openingBlock (sound : e.IsSound) (hm : margin.all isLayoutBlank = true) :
    Spells (e.openingBlock margin) [openingItem e false] := by
  have := Spells.opening sound (tagTail_block false e.properties hm) .nil
  simpa [Element.openingBlock, Element.propertiesBlock, endSign, openingItem] using this

theorem spells_selfClosingBlock (sound : e.IsSound) (hm : margin.all isLayoutBlank = true) :
    Spells (e.selfClosingBlock margin) [openingItem e true] := by
  have := Spells.opening sound (tagTail_block true e.properties hm) .nil
  simpa [Element.selfClosingBlock, Element.propertiesBlock, endSign, openingItem] using this

theorem spells_closing (sound : e.IsSound) : Spells e.closing [.closing e.name] := by
  have := Spells.closing sound .nil
  simpa using this

/-! ### Lines -/

theorem oneLine_propertiesInline (sound : e.IsSound) : '\n' ∉ e.propertiesInline := by
  simp only [Element.propertiesInline, List.mem_flatMap, List.mem_cons, not_exists, not_and, not_or]
  exact fun p hp => ⟨by decide, sound.oneLine p hp⟩

theorem isTagLine_opening (sound : e.IsSound) : IsTagLine e.opening where
  head := rfl
  last := by simp [Element.opening, List.getLast?_cons]
  oneLine := by
    simpa [Element.opening] using
      ⟨oneLine_of_isName sound.name, oneLine_propertiesInline sound⟩

theorem isTagLine_selfClosing (sound : e.IsSound) : IsTagLine e.selfClosing where
  head := rfl
  last := by simp [Element.selfClosing, List.getLast?_cons]
  oneLine := by
    simpa [Element.selfClosing] using
      ⟨oneLine_of_isName sound.name, oneLine_propertiesInline sound⟩

theorem isTagLine_closing (sound : e.IsSound) : IsTagLine e.closing where
  head := rfl
  last := by simp [Element.closing, List.getLast?_cons]
  oneLine := by simpa [Element.closing] using oneLine_of_isName sound.name

theorem mayEnd_render (p : Property) : ∃ front c, p.render = front ++ [c] ∧
    mayEnd (some c) = true := by
  have value : ∀ v : PropertyValue, ∃ front c, v.render = front ++ [c] ∧
      mayEnd (some c) = true := by
    intro v
    cases v with
    | key s => exact ⟨'(' :: escapeKey s.toList, ')', rfl, by decide⟩
    | literal s => exact ⟨'"' :: escapeLiteral s.toList, '"', rfl, by decide⟩
    | expression s => exact ⟨'\x7b' :: s.toList, '\x7d', rfl, by decide⟩
  cases p with
  | condition s => exact value (.expression s)
  | named n v =>
    obtain ⟨front, c, h, ends⟩ := value v
    exact ⟨n.toList ++ '=' :: front, c, by simp [Property.render, h], ends⟩

/-- A tag with its properties on lines of their own is a tidy block. -/
theorem isTidy_block (sound : e.IsSound) (oneLine : '\n' ∉ margin) (sign : List Char)
    (tidy : isTidy none sign = true) :
    isTidy none ('<' :: (e.name.toList ++ e.propertiesBlock margin ++ '\n' :: sign)) = true := by
  have lines : ∀ (ps : List Property) (head : List Char), isTidy none head = true →
      (∀ p ∈ ps, '\n' ∉ p.render) →
      isTidy none (head ++ ps.flatMap (fun p => '\n' :: (margin ++ p.render))) = true := by
    intro ps
    induction ps with
    | nil => intro head h _; simpa using h
    | cons p ps ih =>
      intro head h oneLines
      simp only [List.mem_cons, forall_eq_or_imp] at oneLines
      obtain ⟨front, c, render, ends⟩ := mayEnd_render p
      have line : isTidy none (margin ++ p.render) = true := by
        have := oneLines.1
        rw [render] at this ⊢
        exact isTidy_prepend oneLine (isTidy_oneLine (fun hn => this (by simp [hn])) ends)
      have := ih _ (isTidy_append_break h line) oneLines.2
      simpa using this
  have name : isTidy none ('<' :: e.name.toList) = true := by
    have h := sound.name
    obtain ⟨front, c, hc⟩ : ∃ front c, e.name.toList = front ++ [c] := by
      rcases List.eq_nil_or_concat e.name.toList with h' | ⟨front, c, h'⟩
      · simp [h', isName] at h
      · exact ⟨front, c, by rw [h', List.concat_eq_append]⟩
    have oneLine := oneLine_of_isName h
    have ends : mayEnd (some c) = true := by
      have hr : '\r' ∉ e.name.toList := by
        intro hr
        cases hn : e.name.toList with
        | nil => simp [hn] at hr
        | cons d ds =>
          rw [hn] at h hr
          simp only [isName, Bool.and_eq_true, List.all_eq_true] at h
          rcases List.mem_cons.mp hr with rfl | hr
          · exact absurd h.1 (by decide)
          · exact absurd (h.2 _ hr) (by decide)
      rw [hc] at hr oneLine
      simp only [List.mem_append, List.mem_singleton, not_or] at hr oneLine
      simp [mayEnd, Ne.symm hr.2, Ne.symm oneLine.2]
    rw [hc] at oneLine ⊢
    have opens : '\n' ∉ '<' :: front := by simp_all
    show isTidy none (('<' :: front) ++ [c]) = true
    exact isTidy_oneLine opens ends
  have := isTidy_append_break (lines e.properties _ name sound.oneLine) tidy
  simpa [Element.propertiesBlock] using this

theorem isTidy_openingBlock (sound : e.IsSound) (oneLine : '\n' ∉ margin) :
    isTidy none (e.openingBlock margin) = true := by
  simpa [Element.openingBlock] using isTidy_block sound oneLine ['>'] (by decide)

theorem isTidy_selfClosingBlock (sound : e.IsSound) (oneLine : '\n' ∉ margin) :
    isTidy none (e.selfClosingBlock margin) = true := by
  simpa [Element.selfClosingBlock] using
    isTidy_block sound oneLine ['/', '>'] (by decide)

end

end WorldMarkup.Layout
