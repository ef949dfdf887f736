import WorldMarkup.Layout.Page
import WorldMarkup.Proofs.Markup.Spelling

/-!
Blocks of lines. A block is tidy when none of its lines is empty or ends in a carriage return.
Main statements: indenting a tidy block puts a margin in front of it and behind each of its line
breaks, and what comes of it is tidy again.
-/

set_option autoImplicit false
set_option relaxedAutoImplicit false

namespace WorldMarkup.Layout

open Markup (respace respace_append)

/-- Whether a line may end after the character, or where there is none. -/
def mayEnd (last : Option Char) : Bool := last.any (fun c => c != '\n' && c != '\r')

/-- Whether a text that comes after a character, or after none, goes on as a tidy block. -/
def isTidy (last : Option Char) : List Char → Bool
  | [] => mayEnd last
  | c :: cs => (c != '\n' || mayEnd last) && isTidy (some c) cs

variable {a b : Option Char} {cs ds margin : List Char}

theorem isTidy_mono (h : mayEnd a = true → mayEnd b = true) (tidy : isTidy a cs = true) :
    isTidy b cs = true := by
  cases cs with
  | nil => exact h tidy
  | cons c cs =>
    simp only [isTidy, Bool.and_eq_true, Bool.or_eq_true] at *
    exact ⟨tidy.1.imp_right h, tidy.2⟩

theorem isTidy_of_none (tidy : isTidy none cs = true) : isTidy a cs = true :=
  isTidy_mono (by simp [mayEnd]) tidy

theorem isTidy_none_of_break (tidy : isTidy (some '\n') cs = true) : isTidy none cs = true :=
  isTidy_mono (by simp [mayEnd]) tidy

theorem ne_nil_of_isTidy (tidy : isTidy none cs = true) : cs ≠ [] := by
  rintro rfl
  simp [isTidy, mayEnd] at tidy

theorem isTidy_append_break (h : isTidy a cs = true) (h' : isTidy none ds = true) :
    isTidy a (cs ++ '\n' :: ds) = true := by
  induction cs generalizing a with
  | nil =>
    simp only [List.nil_append, isTidy, Bool.and_eq_true, Bool.or_eq_true]
    exact ⟨.inr h, isTidy_of_none h'⟩
  | cons c cs ih =>
    simp only [isTidy, Bool.and_eq_true] at h
    simp only [List.cons_append, isTidy, Bool.and_eq_true]
    exact ⟨h.1, ih h.2⟩

theorem isTidy_append_oneLine (oneLine : '\n' ∉ cs)
    (h : isTidy (cs.getLast?.or a) ds = true) : isTidy a (cs ++ ds) = true := by
  induction cs generalizing a with
  | nil => exact h
  | cons c cs ih =>
    simp only [List.mem_cons, not_or] at oneLine
    have last : (c :: cs).getLast?.or a = cs.getLast?.or (some c) := by
      rw [List.getLast?_cons]
      cases cs.getLast? <;> simp
    rw [last] at h
    simp [isTidy, Ne.symm oneLine.1, ih oneLine.2 h]

theorem isTidy_prepend (oneLine : '\n' ∉ cs) (h : isTidy none ds = true) :
    isTidy a (cs ++ ds) = true :=
  isTidy_append_oneLine oneLine (isTidy_of_none h)

theorem isTidy_oneLine {c : Char} (oneLine : '\n' ∉ cs) (h : mayEnd (some c) = true) :
    isTidy a (cs ++ [c]) = true := by
  refine isTidy_prepend oneLine ?_
  have : c ≠ '\n' := by
    rintro rfl
    simp [mayEnd] at h
  simp [isTidy, h, this]

theorem isTidy_respace (oneLine : '\n' ∉ margin) (h : isTidy a cs = true) :
    isTidy a (respace margin cs) = true := by
  induction cs generalizing a with
  | nil => exact h
  | cons c cs ih =>
    simp only [isTidy, Bool.and_eq_true] at h
    rw [← List.singleton_append, respace_append]
    by_cases hc : c = '\n'
    · subst hc
      have tail := ih (isTidy_none_of_break h.2)
      have head := h.1
      simp only [respace, List.flatMap_cons, List.flatMap_nil, if_true, List.append_nil,
        List.cons_append, isTidy, Bool.and_eq_true] at *
      exact ⟨head, isTidy_prepend oneLine tail⟩
    · simpa [respace, hc, isTidy] using ih h.2

/-! ### Lines of a tidy block -/

theorem unlines_cons {l : List Char} {ls : List (List Char)} (h : ls ≠ []) :
    unlines (l :: ls) = l ++ '\n' :: unlines ls := by
  obtain ⟨l', ls, rfl⟩ := List.exists_cons_of_ne_nil h
  simp [unlines, List.intercalate_cons_cons]

theorem linesFrom_ne_nil (line : List Char) (h : cs ≠ []) : linesFrom line cs ≠ [] := by
  induction cs generalizing line with
  | nil => exact absurd rfl h
  | cons c cs ih =>
    rw [linesFrom.eq_def]
    dsimp only
    split
    · simp
    · cases cs with
      | nil => simp [linesFrom]
      | cons d cs => exact ih _ (by simp)

theorem unlines_linesFrom (margin line : List Char) (tidy : isTidy line.head? cs = true) :
    unlines ((linesFrom line cs).map (fun l => if l.isEmpty then [] else margin ++ l)) =
      margin ++ (line.reverse ++ respace margin cs) := by
  induction cs generalizing line with
  | nil =>
    cases line with
    | nil => simp [isTidy, mayEnd] at tidy
    | cons d line => simp [linesFrom, unlines, respace]
  | cons c cs ih =>
    simp only [isTidy, Bool.and_eq_true, Bool.or_eq_true, bne_iff_ne, ne_eq] at tidy
    by_cases hc : c = '\n'
    · subst hc
      have ends : mayEnd line.head? = true := tidy.1.resolve_left (by simp)
      have tail := isTidy_none_of_break tidy.2
      have rest := ih [] tail
      have ne : (linesFrom [] cs).map (fun l => if l.isEmpty then [] else margin ++ l) ≠ [] := by
        simpa using linesFrom_ne_nil [] (ne_nil_of_isTidy tail)
      obtain ⟨d, line, rfl⟩ : ∃ d l, line = d :: l := by
        cases line with
        | nil => simp [mayEnd] at ends
        | cons d l => exact ⟨d, l, rfl⟩
      have notReturn : d ≠ '\r' := by
        rintro rfl
        simp [mayEnd] at ends
      have first : linesFrom (d :: line) ('\n' :: cs) =
          (d :: line).reverse :: linesFrom [] cs := by
        rw [linesFrom.eq_def]
        simp [notReturn]
      rw [first, List.map_cons, unlines_cons ne, rest]
      simp [respace]
    · have step : linesFrom line (c :: cs) = linesFrom (c :: line) cs := by
        rw [linesFrom.eq_def]
        simp [hc]
      rw [step, ih (c :: line) tidy.2]
      simp [respace, hc]

theorem indentBlock_of_isTidy (margin : List Char) (tidy : isTidy none cs = true) :
    indentBlock cs margin = margin ++ respace margin cs := by
  rw [indentBlock, lines, unlines_linesFrom margin [] tidy]
  rfl

theorem isTidy_indentBlock (oneLine : '\n' ∉ margin) (tidy : isTidy none cs = true) :
    isTidy none (indentBlock cs margin) = true := by
  rw [indentBlock_of_isTidy margin tidy]
  exact isTidy_prepend oneLine (isTidy_respace oneLine tidy)

end WorldMarkup.Layout
