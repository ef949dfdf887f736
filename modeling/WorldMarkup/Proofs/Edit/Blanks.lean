import Mathlib.Data.List.TakeWhile
import Mathlib.Tactic.Conv
import WorldMarkup.Form.Alignment

/-!
Blanks at the ends of a text, and blanks that count as one. Main statements: text trimmed between
spaces collapses as it would untrimmed, and the leaves of an excess are its trimmed text between
spaces.
-/

set_option autoImplicit false
set_option relaxedAutoImplicit false

namespace WorldMarkup

namespace Text

/-! ### Blanks that count as one -/

/-- Write every run of blanks as a single space. -/
def collapse : List Char → List Char
  | [] => []
  | c :: rest =>
    if isBlank c then
      if rest.head?.any isBlank then collapse rest else ' ' :: collapse rest
    else c :: collapse rest

theorem collapse_plain {c : Char} (plain : isBlank c = false) (rest : List Char) :
    collapse (c :: rest) = c :: collapse rest := by
  rw [collapse, plain]
  rfl

theorem collapse_blank {c : Char} (blank : isBlank c = true) (rest : List Char) :
    collapse (c :: rest) =
      if rest.head?.any isBlank then collapse rest else ' ' :: collapse rest := by
  rw [collapse, if_pos blank]

theorem head?_collapse (cs : List Char) :
    (collapse cs).head?.any isBlank = cs.head?.any isBlank := by
  induction cs with
  | nil => rfl
  | cons c rest ih =>
    cases blank : isBlank c with
    | false => simp [collapse_plain blank, blank]
    | true =>
      rw [collapse_blank blank]
      split
      · rename_i next
        simpa [ih, blank] using next
      · simp [blank]
        decide

theorem collapse_append_left (a b : List Char) : collapse (collapse a ++ b) = collapse (a ++ b) := by
  induction a with
  | nil => rfl
  | cons c a ih =>
    cases blank : isBlank c with
    | false =>
      rw [collapse_plain blank, List.cons_append, List.cons_append, collapse_plain blank,
        collapse_plain blank, ih]
    | true =>
      have space : isBlank ' ' = true := by decide
      cases a with
      | nil =>
        simp [collapse, blank, space]
      | cons c' a =>
        rw [collapse_blank blank, List.cons_append (a := c), collapse_blank blank]
        cases next : isBlank c' with
        | true => simpa [next] using ih
        | false =>
          have still : ((collapse (c' :: a) ++ b).head?.any isBlank) = false := by
            simp [collapse_plain next, next]
          simp only [List.head?_cons, List.cons_append, Option.any_some, next, Bool.false_eq_true,
            if_false] at ih ⊢
          rw [collapse_blank space, still, ih]
          rfl

theorem collapse_congr {a b : List Char} (h : collapse a = collapse b) (before after : List Char) :
    collapse (before ++ a ++ after) = collapse (before ++ b ++ after) := by
  have behind : collapse (a ++ after) = collapse (b ++ after) := by
    rw [← collapse_append_left a, h, collapse_append_left]
  induction before with
  | nil => exact behind
  | cons c before ih =>
    cases blank : isBlank c with
    | false =>
      rw [List.cons_append, List.cons_append, List.cons_append, List.cons_append,
        collapse_plain blank, collapse_plain blank, ih]
    | true =>
      have next := congrArg (fun cs => cs.head?.any isBlank) ih
      simp only [head?_collapse] at next
      rw [List.cons_append, List.cons_append, List.cons_append, List.cons_append,
        collapse_blank blank, collapse_blank blank, next, ih]

theorem collapse_blanks {cs : List Char} (ne : cs ≠ []) (blank : ∀ c ∈ cs, isBlank c = true) :
    collapse cs = [' '] := by
  induction cs with
  | nil => exact absurd rfl ne
  | cons c cs ih =>
    obtain ⟨first, others⟩ := List.forall_mem_cons.1 blank
    rw [collapse_blank first]
    cases cs with
    | nil => rfl
    | cons c' cs =>
      have next : isBlank c' = true := others c' (by simp)
      simpa [next] using ih (by simp) others

def lead (cs : List Char) : List Char := cs.takeWhile isBlank

def trail (cs : List Char) : List Char := (lead (cs.dropWhile isBlank).reverse).reverse

theorem blank_of_mem_lead (cs : List Char) : ∀ c ∈ lead cs, isBlank c = true :=
  List.all_eq_true.1 List.all_takeWhile

theorem blank_of_mem_trail (cs : List Char) : ∀ c ∈ trail cs, isBlank c = true :=
  fun c hc => blank_of_mem_lead _ c (List.mem_reverse.1 hc)

theorem lead_append_trail (cs : List Char) : lead cs ++ trimList cs ++ trail cs = cs := by
  rw [List.append_assoc, trimList, trail, ← List.reverse_append, lead, lead,
    List.takeWhile_append_dropWhile, List.reverse_reverse, List.takeWhile_append_dropWhile]

theorem lead_eq_nil {cs : List Char} : lead cs = [] ↔ cs.head?.any isBlank = false := by
  cases cs with
  | nil => simp [lead]
  | cons c cs => cases blank : isBlank c <;> simp [lead, blank]

theorem lead_dropWhile (cs : List Char) : lead (cs.dropWhile isBlank) = [] := by
  rw [lead_eq_nil]
  have stops := List.head?_dropWhile_not isBlank cs
  cases next : (cs.dropWhile isBlank).head? with
  | none => rfl
  | some c => simpa [next] using stops

theorem dropWhile_eq_nil_of_trimList {cs : List Char} (h : trimList cs = []) :
    cs.dropWhile isBlank = [] := by
  have blanks : ∀ c ∈ cs.dropWhile isBlank, isBlank c = true := by
    rw [trimList, List.reverse_eq_nil_iff, List.dropWhile_eq_nil_iff] at h
    exact fun c hc => h c (List.mem_reverse.2 hc)
  rw [← lead_dropWhile cs, lead, List.takeWhile_eq_self_iff.2 blanks]

theorem trail_eq_nil {cs : List Char} :
    trail cs = [] ↔ trimList cs = [] ∨ cs.getLast?.any isBlank = false := by
  rw [trail, List.reverse_eq_nil_iff]
  by_cases h : trimList cs = []
  · simp [h, dropWhile_eq_nil_of_trimList h, lead]
  · have some : cs.dropWhile isBlank ≠ [] := by
      intro none
      exact h (by rw [trimList, none]; rfl)
    have last : cs.getLast? = (cs.dropWhile isBlank).reverse.head? := by
      rw [List.head?_reverse]
      conv_lhs => rw [← List.takeWhile_append_dropWhile (p := isBlank) (l := cs)]
      rw [List.getLast?_append, List.getLast?_eq_some_getLast some, Option.some_or]
    simp [h, lead_eq_nil, last]

theorem collapse_eq_nil {cs : List Char} : collapse cs = [] ↔ cs = [] := by
  induction cs with
  | nil => simp [collapse]
  | cons c cs ih =>
    cases blank : isBlank c with
    | false => simp [collapse_plain blank]
    | true =>
      rw [collapse_blank blank]
      cases cs with
      | nil => simp
      | cons c' cs => split <;> simp_all

/-- A run of blanks, or the space that stands for it. -/
def spaceFor (blanks : List Char) : List Char := if blanks = [] then [] else [' ']

theorem collapse_spaceFor {cs : List Char} (blank : ∀ c ∈ cs, isBlank c = true) :
    collapse (spaceFor cs) = collapse cs := by
  rw [spaceFor]
  split
  · rename_i none
    rw [none]
  · rename_i some
    rw [collapse_blanks some blank]
    rfl

theorem collapse_trim (cs : List Char) :
    collapse (spaceFor (lead cs) ++ trimList cs ++ spaceFor (trail cs)) = collapse cs := by
  have first := collapse_congr (collapse_spaceFor (blank_of_mem_lead cs)) []
    (trimList cs ++ spaceFor (trail cs))
  have last := collapse_congr (collapse_spaceFor (blank_of_mem_trail cs)) (lead cs ++ trimList cs) []
  simp only [List.nil_append, List.append_nil, List.append_assoc] at first last
  rw [List.append_assoc, first, last, ← List.append_assoc, lead_append_trail]

end Text

namespace Alignment

def spacesFor (blanks : List Char) : List (Tag × Extra) :=
  if blanks = [] then [] else [(.space, {})]

theorem excessLeaves_eq (e : Extra) (excess : List Char) :
    excessLeaves e excess =
      spacesFor (Text.lead excess) ++
        (if Text.trimList excess = [] then []
        else [(.text (String.ofList (Text.trimList excess)), e)]) ++
        spacesFor (Text.trail excess) := by
  rw [excessLeaves, spacesFor, spacesFor]
  simp only [Text.lead_eq_nil, Text.trail_eq_nil]
  cases excess.head?.any Text.isBlank <;> cases excess.getLast?.any Text.isBlank <;>
    cases h : Text.trimList excess <;> simp

end Alignment

end WorldMarkup
