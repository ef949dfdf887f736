import WorldMarkup.Proofs.Layout.Lines

/-!
How wide the lines of a text are when the text is put together from others. A line feed takes one
carriage return before it along, so a text is measured part by part only when it is steady: no
line break has two carriage returns before it, and the text ends in none. Main statements: the
lines of steady texts between line breaks are the lines of the texts, an indented steady block
fits what it fits without the margin, and so does all that stands within a text that fits.
-/

set_option autoImplicit false
set_option relaxedAutoImplicit false

namespace WorldMarkup.Layout

/-- Whether no line of the text is longer than the room there is. -/
def Fits (room : Nat) (text : List Char) : Prop := ∀ l ∈ lines text, l.length ≤ room

/-- Whether a text that comes after so many carriage returns is steady. -/
def isSteadyAfter (returns : Nat) : List Char → Bool
  | [] => returns == 0
  | c :: cs =>
    if c = '\n' then decide (returns ≤ 1) && isSteadyAfter 0 cs
    else isSteadyAfter (if c = '\r' then returns + 1 else 0) cs

/-- No line break has two carriage returns before it, and none is at the end. -/
abbrev IsSteady (text : List Char) : Prop := isSteadyAfter 0 text = true

variable {room n : Nat} {line text a b : List Char} {margin : List Char}

/-! ### Steady texts -/

theorem isSteadyAfter_append (h : isSteadyAfter n a = true) :
    isSteadyAfter n (a ++ b) = isSteadyAfter 0 b := by
  induction a generalizing n with
  | nil =>
    obtain rfl : n = 0 := by simpa [isSteadyAfter] using h
    rfl
  | cons c cs ih =>
    rw [List.cons_append, isSteadyAfter]
    rw [isSteadyAfter] at h
    split at h
    · rename_i hc
      rw [Bool.and_eq_true] at h
      rw [if_pos hc, h.1, Bool.true_and]
      exact ih h.2
    · rename_i hc
      rw [if_neg hc]
      exact ih h

theorem IsSteady.append (ha : IsSteady a) (hb : IsSteady b) : IsSteady (a ++ b) := by
  rw [IsSteady, isSteadyAfter_append ha]
  exact hb

theorem IsSteady.flatten {texts : List (List Char)} (h : ∀ x ∈ texts, IsSteady x) :
    IsSteady texts.flatten := by
  induction texts with
  | nil => rfl
  | cons x rest ih =>
    rw [List.forall_mem_cons] at h
    exact h.1.append (ih h.2)

theorem IsSteady.append_break (ha : IsSteady a) (hb : IsSteady b) : IsSteady (a ++ '\n' :: b) :=
  ha.append hb

theorem IsSteady.unlines {texts : List (List Char)} (h : ∀ x ∈ texts, IsSteady x) :
    IsSteady (unlines texts) := by
  induction texts with
  | nil => rfl
  | cons x rest ih =>
    rw [List.forall_mem_cons] at h
    by_cases none : rest = []
    · subst none
      simpa [Layout.unlines] using h.1
    · rw [unlines_cons none]
      exact h.1.append_break (ih h.2)

/-- A text is steady when two carriage returns never stand before a line break, and none stands
at the end. -/
theorem isSteadyAfter_of_singleReturns
    (breaks : ¬ ['\r', '\r', '\n'] <:+: List.replicate n '\r' ++ text)
    (start : text = [] → n = 0) (last : text.getLast? ≠ some '\r') :
    isSteadyAfter n text = true := by
  induction text generalizing n with
  | nil => simpa [isSteadyAfter] using start rfl
  | cons c cs ih =>
    have lastRest : cs.getLast? ≠ some '\r' := by
      intro h
      exact last (by simp [List.getLast?_cons, h])
    rw [isSteadyAfter]
    split
    · rename_i hc
      subst hc
      have few : n ≤ 1 := by
        apply Nat.le_of_not_lt
        intro many
        obtain ⟨k, rfl⟩ : ∃ k, n = k + 2 := ⟨n - 2, by omega⟩
        exact breaks ⟨List.replicate k '\r', cs, by simp [List.replicate_succ']⟩
      rw [Bool.and_eq_true, decide_eq_true_eq]
      refine ⟨few, ih (fun h => breaks ?_) (fun _ => rfl) lastRest⟩
      exact h.trans ⟨List.replicate n '\r' ++ ['\n'], [], by simp⟩
    · split
      · rename_i hc
        subst hc
        have more : cs ≠ [] := by
          rintro rfl
          exact last rfl
        refine ih (fun h => breaks ?_) (fun none => absurd none more) lastRest
        rwa [List.replicate_succ', List.append_assoc] at h
      · refine ih (fun h => breaks ?_) (fun _ => rfl) lastRest
        exact h.trans ⟨List.replicate n '\r' ++ [c], [], by simp⟩

theorem isSteady_of_singleReturns (breaks : ¬ ['\r', '\r', '\n'] <:+: text)
    (last : text.getLast? ≠ some '\r') : IsSteady text :=
  isSteadyAfter_of_singleReturns breaks (fun _ => rfl) last

theorem isSteady_of_oneLine (oneLine : '\n' ∉ text) (last : text.getLast? ≠ some '\r') :
    IsSteady text := by
  apply isSteady_of_singleReturns _ last
  intro h
  exact oneLine (h.subset (by simp))

theorem isSteadyAfter_of_head {c : Char} (h : IsSteady (c :: text)) (noBreak : c ≠ '\n')
    (noReturn : c ≠ '\r') : isSteadyAfter n (c :: text) = true := by
  simpa [IsSteady, isSteadyAfter, noBreak, noReturn] using h

theorem isSteadyAfter_append_oneLine (oneLine : '\n' ∉ a)
    (h : ∀ k, isSteadyAfter k b = true) : isSteadyAfter n (a ++ b) = true := by
  induction a generalizing n with
  | nil => exact h n
  | cons c cs ih =>
    simp only [List.mem_cons, not_or] at oneLine
    rw [List.cons_append, isSteadyAfter, if_neg (Ne.symm oneLine.1)]
    exact ih oneLine.2

/-! ### Lines of texts put together -/

def closeLine : List Char → List Char
  | [] => []
  | c :: line => if c = '\r' then line.reverse else (c :: line).reverse

theorem linesFrom_break (line text : List Char) :
    linesFrom line ('\n' :: text) = closeLine line :: lines text := by
  rw [linesFrom.eq_def]
  simp only [beq_self_eq_true, if_true, lines]
  congr 1
  cases line with
  | nil => rfl
  | cons c line =>
    by_cases hc : c = '\r'
    · subst hc
      rfl
    · simp [closeLine, hc]

theorem linesFrom_char {c : Char} (hc : c ≠ '\n') (line text : List Char) :
    linesFrom line (c :: text) = linesFrom (c :: line) text := by
  rw [linesFrom.eq_def]
  simp [hc]

def returnsIn (line : List Char) : Nat := (line.takeWhile (· == '\r')).length

theorem returnsIn_cons (c : Char) (line : List Char) :
    returnsIn (c :: line) = if c = '\r' then returnsIn line + 1 else 0 := by
  unfold returnsIn
  by_cases hc : c = '\r' <;> simp [hc]

theorem closeLine_of_returnsIn (h : returnsIn line = 0) : closeLine line = line.reverse := by
  cases line with
  | nil => rfl
  | cons c line =>
    by_cases hc : c = '\r'
    · simp [returnsIn_cons, hc] at h
    · simp [closeLine, hc]

theorem length_closeLine (line : List Char) :
    (closeLine line).length ≤ line.length ∧ line.length ≤ (closeLine line).length + 1 := by
  cases line with
  | nil => simp [closeLine]
  | cons c line => by_cases hc : c = '\r' <;> simp [closeLine, hc]

theorem oneLine_closeLine (oneLine : '\n' ∉ line) : '\n' ∉ closeLine line := by
  cases line with
  | nil => simp [closeLine]
  | cons c line =>
    simp only [List.mem_cons, not_or] at oneLine
    by_cases hc : c = '\r' <;> simp [closeLine, hc, oneLine]

theorem getLast?_closeLine (h : returnsIn line ≤ 1) : (closeLine line).getLast? ≠ some '\r' := by
  cases line with
  | nil => simp [closeLine]
  | cons c line =>
    by_cases hc : c = '\r'
    · rw [closeLine, if_pos hc, List.getLast?_reverse]
      cases line with
      | nil => simp
      | cons d line =>
        by_cases hd : d = '\r'
        · simp [returnsIn_cons, hc, hd] at h
        · simpa using hd
    · rw [closeLine, if_neg hc, List.getLast?_reverse]
      simpa using hc

theorem linesFrom_append_break (line a b : List Char) :
    linesFrom line (a ++ '\n' :: b) = linesFrom line (a ++ ['\n']) ++ lines b := by
  induction a generalizing line with
  | nil => simp only [List.nil_append, linesFrom_break, List.cons_append]; rfl
  | cons c cs ih =>
    by_cases hc : c = '\n'
    · subst hc
      simp only [List.cons_append, linesFrom_break, lines, ih]
    · simp only [List.cons_append, linesFrom_char hc, ih]

theorem linesFrom_append_singleton (h : isSteadyAfter (returnsIn line) text = true) :
    ∃ more, (more = [] ∨ more = [[]]) ∧
      linesFrom line (text ++ ['\n']) = linesFrom line text ++ more := by
  induction text generalizing line with
  | nil =>
    have none : returnsIn line = 0 := by simpa [isSteadyAfter] using h
    rw [List.nil_append, linesFrom_break, closeLine_of_returnsIn none]
    cases line with
    | nil => exact ⟨[[]], .inr rfl, rfl⟩
    | cons c line => exact ⟨[], .inl rfl, rfl⟩
  | cons c cs ih =>
    rw [isSteadyAfter] at h
    by_cases hc : c = '\n'
    · subst hc
      rw [if_pos rfl, Bool.and_eq_true] at h
      have rest : isSteadyAfter (returnsIn []) cs = true := h.2
      obtain ⟨more, hmore, heq⟩ := ih rest
      refine ⟨more, hmore, ?_⟩
      simp only [List.cons_append, linesFrom_break, lines, heq]
    · rw [if_neg hc, ← returnsIn_cons] at h
      obtain ⟨more, hmore, heq⟩ := ih h
      refine ⟨more, hmore, ?_⟩
      simp only [List.cons_append, linesFrom_char hc, heq]

theorem fits_append_break (steady : IsSteady a) :
    Fits room (a ++ '\n' :: b) ↔ Fits room a ∧ Fits room b := by
  have start : isSteadyAfter (returnsIn []) a = true := steady
  obtain ⟨more, hmore, heq⟩ := linesFrom_append_singleton start
  have empty : ∀ l ∈ more, l.length ≤ room := by
    intro l hl
    rcases hmore with rfl | rfl
    · simp at hl
    · rw [List.mem_singleton.1 hl]
      exact Nat.zero_le _
  simp only [Fits, lines, linesFrom_append_break, heq, List.forall_mem_append]
  exact ⟨fun h => ⟨h.1.1, h.2⟩, fun h => ⟨⟨h.1, empty⟩, h.2⟩⟩

theorem fits_unlines {texts : List (List Char)} (steady : ∀ x ∈ texts, IsSteady x) :
    Fits room (unlines texts) ↔ ∀ x ∈ texts, Fits room x := by
  induction texts with
  | nil => simp [Fits, unlines, lines, linesFrom]
  | cons x rest ih =>
    rw [List.forall_mem_cons] at steady ⊢
    by_cases none : rest = []
    · subst none
      simp [unlines]
    · rw [unlines_cons none, fits_append_break steady.1, ih steady.2]

/-! ### Blocks -/

theorem linesFrom_oneLine (oneLine : '\n' ∉ text) (line : List Char) :
    linesFrom line text =
      if (line.reverse ++ text).isEmpty then [] else [line.reverse ++ text] := by
  induction text generalizing line with
  | nil => simp [linesFrom]
  | cons c cs ih =>
    simp only [List.mem_cons, not_or] at oneLine
    rw [linesFrom_char (Ne.symm oneLine.1), ih oneLine.2]
    simp

theorem fits_oneLine (oneLine : '\n' ∉ text) : Fits room text ↔ text.length ≤ room := by
  rw [Fits, lines, linesFrom_oneLine oneLine]
  cases text with
  | nil => simp
  | cons c cs => simp

theorem steady_lines (oneLine : '\n' ∉ line) (h : isSteadyAfter (returnsIn line) text = true) :
    ∀ l ∈ linesFrom line text, '\n' ∉ l ∧ l.getLast? ≠ some '\r' := by
  induction text generalizing line with
  | nil =>
    have none : returnsIn line = 0 := by simpa [isSteadyAfter] using h
    intro l hl
    rw [linesFrom] at hl
    split at hl
    · simp at hl
    · rw [List.mem_singleton.1 hl, ← closeLine_of_returnsIn none]
      exact ⟨oneLine_closeLine oneLine, getLast?_closeLine (by omega)⟩
  | cons c cs ih =>
    rw [isSteadyAfter] at h
    by_cases hc : c = '\n'
    · subst hc
      rw [if_pos rfl, Bool.and_eq_true, decide_eq_true_eq] at h
      have rest : isSteadyAfter (returnsIn []) cs = true := h.2
      rw [linesFrom_break, List.forall_mem_cons]
      exact ⟨⟨oneLine_closeLine oneLine, getLast?_closeLine h.1⟩, ih (by simp) rest⟩
    · rw [if_neg hc, ← returnsIn_cons] at h
      rw [linesFrom_char hc]
      exact ih (by simp [Ne.symm hc, oneLine]) h

/-- A line of an indented block: a margin in front of it if it has characters. -/
def marginLine (margin line : List Char) : List Char := if line.isEmpty then [] else margin ++ line

theorem indentBlock_eq (block margin : List Char) :
    indentBlock block margin = unlines ((lines block).map (marginLine margin)) := rfl

theorem steady_marginLine (oneLine : '\n' ∉ margin) (steady : IsSteady text) :
    ∀ l ∈ lines text, '\n' ∉ marginLine margin l ∧ IsSteady (marginLine margin l) := by
  intro l hl
  have start : isSteadyAfter (returnsIn []) text = true := steady
  obtain ⟨whole, last⟩ := steady_lines (by simp) start l hl
  unfold marginLine
  split
  · exact ⟨by simp, rfl⟩
  · rename_i full
    have noBreak : '\n' ∉ margin ++ l := by simp [oneLine, whole]
    have some : l ≠ [] := by simpa using full
    refine ⟨noBreak, isSteady_of_oneLine noBreak ?_⟩
    rw [List.getLast?_append, List.getLast?_eq_some_getLast some] at *
    simpa using last

theorem steady_indentBlock (oneLine : '\n' ∉ margin) (steady : IsSteady text) :
    IsSteady (indentBlock text margin) := by
  rw [indentBlock_eq]
  apply IsSteady.unlines
  intro x hx
  obtain ⟨l, hl, rfl⟩ := List.mem_map.1 hx
  exact (steady_marginLine oneLine steady l hl).2

/-- An indented block fits the page one level further out exactly when the block fits it where it
stands. -/
theorem fits_indentBlock {page : Page} (oneLine : '\n' ∉ page.margin) (steady : IsSteady text)
    (depth : Nat) :
    Fits (page.budget depth) (indentBlock text page.margin) ↔
      Fits (page.budget (depth + 1)) text := by
  have rows := steady_marginLine oneLine steady
  rw [indentBlock_eq, fits_unlines (by simpa using fun l hl => (rows l hl).2)]
  simp only [List.forall_mem_map]
  have measure : ∀ l ∈ lines text, (Fits (page.budget depth) (marginLine page.margin l) ↔
      l.length ≤ page.budget (depth + 1)) := by
    intro l hl
    rw [fits_oneLine (rows l hl).1, Page.budget, Page.budget, Nat.succ_mul]
    unfold marginLine
    cases l with
    | nil => simp
    | cons c l =>
      simp only [List.isEmpty_cons, Bool.false_eq_true, if_false, List.length_append,
        List.length_cons]
      omega
  exact forall₂_congr measure

/-! ### Parts of a text -/

theorem length_closeLine_append (a b : List Char) :
    (closeLine a).length ≤ (closeLine (a ++ b)).length := by
  cases a with
  | nil => simp [closeLine]
  | cons c a =>
    by_cases hc : c = '\r'
    · subst hc
      simp [closeLine]
    · simp [closeLine, hc]

theorem fits_linesFrom_drop (h : ∀ l ∈ linesFrom (a ++ b) text, l.length ≤ room) :
    ∀ l ∈ linesFrom a text, l.length ≤ room := by
  induction text generalizing a with
  | nil =>
    cases a with
    | nil => simp [linesFrom]
    | cons c a =>
      simp only [linesFrom, List.cons_append, List.isEmpty_cons, Bool.false_eq_true, if_false,
        List.forall_mem_cons, List.length_reverse, List.length_cons, List.length_append] at h ⊢
      exact ⟨by omega, by simp⟩
  | cons c cs ih =>
    by_cases hc : c = '\n'
    · subst hc
      rw [linesFrom_break, List.forall_mem_cons] at h ⊢
      exact ⟨Nat.le_trans (length_closeLine_append a b) h.1, h.2⟩
    · rw [linesFrom_char hc] at h ⊢
      exact ih h

theorem fits_of_append_left (h : ∀ l ∈ linesFrom line (a ++ b), l.length ≤ room) : Fits room b := by
  induction a generalizing line with
  | nil => exact fits_linesFrom_drop (a := []) h
  | cons c cs ih =>
    by_cases hc : c = '\n'
    · subst hc
      rw [List.cons_append, linesFrom_break, List.forall_mem_cons] at h
      exact ih h.2
    · rw [List.cons_append, linesFrom_char hc] at h
      exact ih h

theorem exists_longer_line (long : n < line.length ∨ n = line.length ∧ returnsIn line = 0)
    (some : line ≠ []) : ∃ l ∈ linesFrom line text, n ≤ l.length := by
  induction text generalizing line with
  | nil => exact ⟨line.reverse, by simp [linesFrom, some], by simp; omega⟩
  | cons c cs ih =>
    by_cases hc : c = '\n'
    · subst hc
      rw [linesFrom_break]
      refine ⟨closeLine line, by simp, ?_⟩
      have short := (length_closeLine line).2
      rcases long with long | ⟨rfl, none⟩
      · omega
      · simp [closeLine_of_returnsIn none]
    · rw [linesFrom_char hc]
      apply ih _ (by simp)
      left
      simp only [List.length_cons]
      omega

theorem fits_of_append_right (steady : isSteadyAfter (returnsIn line) a = true)
    (h : ∀ l ∈ linesFrom line (a ++ b), l.length ≤ room) :
    ∀ l ∈ linesFrom line a, l.length ≤ room := by
  induction a generalizing line with
  | nil =>
    have none : returnsIn line = 0 := by simpa [isSteadyAfter] using steady
    intro l hl
    rw [linesFrom] at hl
    split at hl
    · simp at hl
    · rename_i some
      obtain ⟨longer, mem, long⟩ : ∃ l ∈ linesFrom line b, line.length ≤ l.length :=
        exists_longer_line (.inr ⟨rfl, none⟩) (by simpa using some)
      rw [List.mem_singleton.1 hl, List.length_reverse]
      exact Nat.le_trans long (h longer mem)
  | cons c cs ih =>
    rw [isSteadyAfter] at steady
    by_cases hc : c = '\n'
    · subst hc
      rw [if_pos rfl, Bool.and_eq_true] at steady
      rw [List.cons_append, linesFrom_break, List.forall_mem_cons] at h
      have rest : isSteadyAfter (returnsIn []) cs = true := steady.2
      rw [linesFrom_break, List.forall_mem_cons]
      exact ⟨h.1, ih rest h.2⟩
    · rw [if_neg hc, ← returnsIn_cons] at steady
      rw [List.cons_append, linesFrom_char hc] at h
      rw [linesFrom_char hc]
      exact ih steady h

theorem Fits.part (fits : Fits room text) (steady : IsSteady a) (within : a <:+: text) :
    Fits room a := by
  obtain ⟨before, after, rfl⟩ := within
  rw [List.append_assoc] at fits
  have start : isSteadyAfter (returnsIn []) a = true := steady
  exact fits_of_append_right start (fits_of_append_left fits)

theorem length_le_of_mem_linesFrom {l : List Char} (h : l ∈ linesFrom line text) :
    l.length ≤ line.length + text.length := by
  induction text generalizing line with
  | nil =>
    rw [linesFrom] at h
    split at h
    · simp at h
    · rw [List.mem_singleton.1 h]
      simp
  | cons c cs ih =>
    by_cases hc : c = '\n'
    · subst hc
      rw [linesFrom_break, List.mem_cons] at h
      rcases h with rfl | h
      · exact Nat.le_trans (length_closeLine line).1 (by simp)
      · have := ih h
        simp only [List.length_nil, List.length_cons] at this ⊢
        omega
    · rw [linesFrom_char hc] at h
      have := ih h
      simp only [List.length_cons] at this ⊢
      omega

theorem fits_of_length_le (h : text.length ≤ room) : Fits room text := by
  intro l hl
  have := length_le_of_mem_linesFrom hl
  simp only [List.length_nil] at this
  omega

end WorldMarkup.Layout
