import Mathlib
import WorldMarkup.Proofs.Layout.Measures
import WorldMarkup.Proofs.Layout.Wrapping

/-!
Tags and running text that are written steadily. Main statement: what is filled of steady chunks is
steady, and fits where each chunk does.
-/

set_option autoImplicit false
set_option relaxedAutoImplicit false

namespace WorldMarkup.Layout

open Markup

variable {room budget : Nat} {chunks : List (List Char)}

/-! ### Filled lines -/

theorem fits_or_mem_of_mem_fillFrom {line row : List Char} (h : row ∈ fillFrom budget line chunks) :
    row.length ≤ budget ∨ row ∈ line :: chunks := by
  induction chunks generalizing line with
  | nil =>
    rw [fillFrom] at h
    split at h
    · simp at h
    · exact .inr h
  | cons c rest ih =>
    rw [fillFrom] at h
    split at h
    · exact (ih h).imp_right (List.mem_cons_of_mem _)
    · split at h
      · rename_i within
        rcases ih h with short | mem
        · exact .inl short
        · rcases List.mem_cons.1 mem with rfl | mem
          · left
            simp only [List.length_append, List.length_cons]
            omega
          · exact .inr (by simp [mem])
      · rcases List.mem_cons.1 h with rfl | h
        · exact .inr (by simp)
        · exact (ih h).imp_right (List.mem_cons_of_mem _)

/-- No chunk is broken or left out. -/
theorem exists_row_of_chunk {line x : List Char} (some : x ≠ [])
    (h : x <:+: line ∨ x ∈ chunks) : ∃ row ∈ fillFrom budget line chunks, x <:+: row := by
  induction chunks generalizing line with
  | nil =>
    have within : x <:+: line := by simpa using h
    have full : line ≠ [] := by
      rintro rfl
      exact some (List.infix_nil.1 within)
    exact ⟨line, by simp [fillFrom, full], within⟩
  | cons c rest ih =>
    rw [fillFrom]
    split
    · rename_i empty
      apply ih
      rcases h with within | mem
      · rw [List.isEmpty_iff.1 empty, List.infix_nil] at within
        exact absurd within some
      · rcases List.mem_cons.1 mem with rfl | mem
        · exact .inl (List.infix_refl x)
        · exact .inr mem
    · split
      · apply ih
        rcases h with within | mem
        · exact .inl (within.trans (List.prefix_append line _).isInfix)
        · rcases List.mem_cons.1 mem with rfl | mem
          · exact .inl ⟨line ++ [' '], [], by simp⟩
          · exact .inr mem
      · rcases h with within | mem
        · exact ⟨line, by simp, within⟩
        · have there : x <:+: c ∨ x ∈ rest := by
            rcases List.mem_cons.1 mem with rfl | mem
            · exact .inl (List.infix_refl x)
            · exact .inr mem
          obtain ⟨row, hrow, within⟩ := ih there
          exact ⟨row, by simp [hrow], within⟩

theorem steady_fillFrom {line : List Char} (start : IsSteady line)
    (steady : ∀ c ∈ chunks, IsSteady c) : ∀ row ∈ fillFrom budget line chunks, IsSteady row := by
  induction chunks generalizing line with
  | nil =>
    intro row hrow
    rw [fillFrom] at hrow
    split at hrow
    · simp at hrow
    · rwa [List.mem_singleton.1 hrow]
  | cons c rest ih =>
    rw [List.forall_mem_cons] at steady
    rw [fillFrom]
    split
    · exact ih steady.1 steady.2
    · split
      · exact ih (start.append (IsSteady.append (a := [' ']) rfl steady.1)) steady.2
      · rw [List.forall_mem_cons]
        exact ⟨start, ih steady.1 steady.2⟩

theorem steady_fill (steady : ∀ c ∈ chunks, IsSteady c) :
    ∀ row ∈ fill budget chunks, IsSteady row := steady_fillFrom rfl steady

/-- Lines filled for the room there is fit if lines filled for another do: what is wider than the
room is a single chunk, and that stands on some line whatever the room. -/
theorem fits_fill (steady : ∀ c ∈ chunks, IsSteady c)
    (fits : Fits room (unlines (fill budget chunks))) :
    Fits room (unlines (fill room chunks)) := by
  rw [fits_unlines (steady_fill steady)] at fits ⊢
  intro row hrow
  rcases fits_or_mem_of_mem_fillFrom hrow with short | single
  · exact fits_of_length_le short
  · by_cases some : row = []
    · subst some
      exact fits_of_length_le (Nat.zero_le _)
    · have chunk : row ∈ chunks := (List.mem_cons.1 single).resolve_left some
      obtain ⟨other, hother, within⟩ : ∃ other ∈ fill budget chunks, row <:+: other :=
        exists_row_of_chunk some (.inr chunk)
      exact (fits other hother).part (steady row chunk) within

/-! ### Steady tags -/

/-- A steady text that starts with a tag. -/
structure IsSteadyTag (out : List Char) : Prop where
  head : out.head? = some '<'
  steady : IsSteady out

theorem IsSteadyTag.after {out : List Char} (h : IsSteadyTag out) (n : Nat) :
    isSteadyAfter n out = true := by
  obtain ⟨rest, rfl⟩ := List.head?_eq_some_iff.1 h.head
  exact isSteadyAfter_of_head h.steady (by decide) (by decide)

/-- Whether the name and the properties of an element are written steadily. -/
structure HasSteadyTags (e : Element) : Prop where
  name : IsSteady e.name.toList
  properties : ∀ p ∈ e.properties, ∀ n, isSteadyAfter n p.render = true

section

variable {e : Element} {margin : List Char}

theorem steady_propertiesInline (h : HasSteadyTags e) : IsSteady e.propertiesInline := by
  rw [Element.propertiesInline, List.flatMap_def]
  apply IsSteady.flatten
  simp only [List.forall_mem_map]
  intro p hp
  exact IsSteady.append (a := [' ']) rfl (h.properties p hp 0)

theorem steady_propertiesBlock (h : HasSteadyTags e) (oneLine : '\n' ∉ margin) :
    IsSteady (e.propertiesBlock margin) := by
  rw [Element.propertiesBlock, List.flatMap_def]
  apply IsSteady.flatten
  simp only [List.forall_mem_map]
  intro p hp
  exact IsSteady.append (a := ['\n']) rfl (isSteadyAfter_append_oneLine oneLine (h.properties p hp))

theorem isSteadyTag_of_properties (h : HasSteadyTags e) {properties sign : List Char}
    (hp : IsSteady properties) (hs : IsSteady sign) :
    IsSteadyTag ('<' :: (e.name.toList ++ properties ++ sign)) :=
  ⟨rfl, IsSteady.append (a := ['<']) rfl ((h.name.append hp).append hs)⟩

theorem steadyTag_opening (h : HasSteadyTags e) : IsSteadyTag e.opening :=
  isSteadyTag_of_properties h (steady_propertiesInline h) rfl

theorem steadyTag_selfClosing (h : HasSteadyTags e) : IsSteadyTag e.selfClosing :=
  isSteadyTag_of_properties h (steady_propertiesInline h) rfl

theorem steadyTag_openingBlock (h : HasSteadyTags e) (oneLine : '\n' ∉ margin) :
    IsSteadyTag (e.openingBlock margin) :=
  isSteadyTag_of_properties h (steady_propertiesBlock h oneLine) rfl

theorem steadyTag_selfClosingBlock (h : HasSteadyTags e) (oneLine : '\n' ∉ margin) :
    IsSteadyTag (e.selfClosingBlock margin) :=
  isSteadyTag_of_properties h (steady_propertiesBlock h oneLine) rfl

theorem steadyTag_closing (h : HasSteadyTags e) : IsSteadyTag e.closing :=
  ⟨rfl, IsSteady.append (a := ['<', '/']) rfl (h.name.append rfl)⟩

end

/-! ### Chunks -/

def HasSteadyAtom : Piece → Prop
  | .char _ => True
  | .atom out => IsSteadyTag out

theorem isSteadyAfter_written {p : Piece} (steady : HasSteadyAtom p) (full : p.isBlank = false)
    (n : Nat) (text : List Char) : isSteadyAfter n (p.written ++ text) = isSteadyAfter 0 text := by
  apply isSteadyAfter_append
  cases p with
  | atom out => exact steady.after n
  | char c =>
    obtain ⟨⟨d, head, -⟩, last⟩ := escapeTextChar_ends full
    have oneLine := escapeTextChar_oneLine c
    have ends : (escapeTextChar c).getLast? ≠ some '\r' := by
      intro h
      simp [h, mayEnd] at last
    obtain ⟨rest, hrest⟩ := List.head?_eq_some_iff.1 head
    have steady := isSteady_of_oneLine oneLine ends
    show isSteadyAfter n (escapeTextChar c) = true
    rw [hrest] at steady oneLine ⊢
    have noReturn : d ≠ '\r' := by
      rintro rfl
      unfold escapeTextChar at hrest
      split at hrest <;> simp at hrest
      obtain ⟨rfl, -⟩ := hrest
      exact absurd full (by decide)
    exact isSteadyAfter_of_head steady (by rintro rfl; simp at oneLine) noReturn

/-- Chunks are steady, for they end where a piece ends that is no blank. After a blank, or at the
start, a chunk goes on with a piece, and so it bears carriage returns before it. -/
theorem steady_chunksFrom {ps : List Piece} (steady : ∀ p ∈ ps, HasSteadyAtom p)
    (last : ps.getLast?.all (fun p => !p.isBlank) = true) (blank : Bool) :
    ∃ c cs, chunksFrom blank ps = c :: cs ∧ IsSteady c ∧ (∀ d ∈ cs, IsSteady d) ∧
      (blank = true → ps ≠ [] → ∀ n, isSteadyAfter n c = true) := by
  induction ps generalizing blank with
  | nil => exact ⟨[], [], rfl, rfl, by simp, fun _ h => absurd rfl h⟩
  | cons p rest ih =>
    rw [List.forall_mem_cons] at steady
    have lastRest : rest.getLast?.all (fun p => !p.isBlank) = true := by
      cases rest with
      | nil => rfl
      | cons q rest => simpa using last
    obtain ⟨c, cs, chunks, cons⟩ := chunksFrom_cons blank p rest
    obtain ⟨c', cs', chunks', first, others, bears⟩ := ih steady.2 lastRest p.isBlank
    rw [chunks] at chunks'
    obtain ⟨rfl, rfl⟩ := List.cons.inj chunks'
    rw [cons]
    split
    · rename_i gap
      obtain ⟨-, rfl, -⟩ := isBlank_of_isGap gap
      exact ⟨[], c :: cs, rfl, rfl, List.forall_mem_cons.2 ⟨first, others⟩, by simp⟩
    · have whole : ∀ n, isSteadyAfter n (p.written ++ c) = true := by
        intro n
        cases full : p.isBlank with
        | false => rwa [isSteadyAfter_written steady.1 full]
        | true =>
          have more : rest ≠ [] := by
            rintro rfl
            simp [full] at last
          cases p with
          | atom out => simp [Piece.isBlank] at full
          | char d =>
            exact isSteadyAfter_append_oneLine (escapeTextChar_oneLine d) (bears full more)
      exact ⟨p.written ++ c, cs, rfl, whole 0, others, fun _ _ => whole⟩

theorem steady_chunks? {ps : List Piece} (steady : ∀ p ∈ ps, HasSteadyAtom p)
    (h : chunks? ps = some chunks) : ∀ c ∈ chunks, IsSteady c := by
  unfold chunks? at h
  split at h
  · rename_i first last hfirst hlast
    split at h
    · simp at h
    · rename_i full
      obtain rfl : chunksFrom true ps = chunks := by simpa using h
      have ends : ps.getLast?.all (fun p => !p.isBlank) = true := by
        simp only [Bool.or_eq_true, not_or, Bool.not_eq_true] at full
        simp [hlast, full.2]
      obtain ⟨c, cs, chunks, hc, hcs, -⟩ := steady_chunksFrom steady ends true
      rw [chunks]
      exact List.forall_mem_cons.2 ⟨hc, hcs⟩
  · simp at h

theorem steady_running {ps : List Piece} (steady : ∀ p ∈ ps, HasSteadyAtom p) {tag : List Char}
    (h : IsSteadyTag tag) (n : Nat) :
    isSteadyAfter n (ps.flatMap Piece.written ++ tag) = true := by
  induction ps generalizing n with
  | nil => exact h.after n
  | cons p ps ih =>
    rw [List.forall_mem_cons] at steady
    rw [List.flatMap_cons, List.append_assoc]
    cases p with
    | char c => exact isSteadyAfter_append_oneLine (escapeTextChar_oneLine c) (ih steady.2)
    | atom out =>
      rw [isSteadyAfter_written steady.1 rfl]
      exact ih steady.2 0

end WorldMarkup.Layout
