import WorldMarkup.Proofs.Layout.Widths

/-!
Filling lines with chunks. Main statement: the filled lines, put together with single spaces, are
the running text on one line, unless a chunk is empty; each of them keeps to the budget or is a
single chunk; and no division of the chunks into lines like that has fewer.
-/

set_option autoImplicit false
set_option relaxedAutoImplicit false

namespace WorldMarkup.Layout

open Markup

/-! ### Spaces between chunks -/

/-- Put chunks, or lines, together with single spaces between them. -/
def spaced (cs : List (List Char)) : List Char := [' '].intercalate cs

section Spaced

variable {c d : List Char} {cs ds : List (List Char)}

@[simp] theorem spaced_singleton (c : List Char) : spaced [c] = c := List.intercalate_singleton

theorem spaced_cons (c : List Char) (ne : cs ≠ []) : spaced (c :: cs) = c ++ ' ' :: spaced cs := by
  obtain ⟨d, ds, rfl⟩ := List.exists_cons_of_ne_nil ne
  simp [spaced, List.intercalate_cons_cons]

theorem spaced_append (hc : cs ≠ []) (hd : ds ≠ []) :
    spaced (cs ++ ds) = spaced cs ++ ' ' :: spaced ds := by
  induction cs with
  | nil => exact absurd rfl hc
  | cons c cs ih =>
    rw [List.cons_append, spaced_cons c (by simp [hd])]
    cases cs with
    | nil => simp
    | cons d cs => rw [ih (by simp), spaced_cons c (by simp), List.append_assoc, List.cons_append]

theorem spaced_flatten {groups : List (List (List Char))} (full : [] ∉ groups) :
    spaced (groups.map spaced) = spaced groups.flatten := by
  induction groups with
  | nil => rfl
  | cons g groups ih =>
    simp only [List.mem_cons, not_or] at full
    have hg : g ≠ [] := Ne.symm full.1
    rw [List.map_cons, List.flatten_cons]
    cases groups with
    | nil => simp
    | cons h groups =>
      have hh : h ≠ [] := by
        rintro rfl
        simp at full
      rw [spaced_cons _ (by simp), spaced_append hg (by simp [hh]), ih full.2]

theorem length_spaced_cons (c : List Char) (cs : List (List Char)) :
    (spaced (c :: cs)).length = c.length + (cs.map (fun d => d.length + 1)).sum := by
  induction cs generalizing c with
  | nil => simp
  | cons d cs ih =>
    rw [spaced_cons c (by simp), List.length_append, List.length_cons, ih, List.map_cons,
      List.sum_cons]
    omega

theorem spaced_chunksFrom (blank : Bool) (ps : List Piece) :
    spaced (chunksFrom blank ps) = ps.flatMap Piece.written := by
  induction ps generalizing blank with
  | nil => rfl
  | cons p rest ih =>
    obtain ⟨c, cs, chunks, cons⟩ := chunksFrom_cons blank p rest
    have written : spaced (c :: cs) = rest.flatMap Piece.written := by rw [← chunks, ih]
    rw [cons, List.flatMap_cons, ← written]
    split
    · rename_i gap
      obtain ⟨rfl, -⟩ := isBlank_of_isGap gap
      rw [spaced_cons _ (by simp)]
      rfl
    · cases cs with
      | nil => simp
      | cons d cs => rw [spaced_cons _ (by simp), spaced_cons c (by simp), List.append_assoc]

end Spaced

/-! ### Lines of chunks -/

/-- Whether chunks may stand on one line: they keep to the budget, or there is a single one. -/
def IsLine (budget : Nat) (cs : List (List Char)) : Prop :=
  (spaced cs).length ≤ budget ∨ cs.length = 1

/-- A division of chunks into consecutive lines. -/
structure IsDivision (budget : Nat) (chunks : List (List Char)) (ds : List (List (List Char))) :
    Prop where
  whole : ds.flatten = chunks
  full : [] ∉ ds
  isLine : ∀ d ∈ ds, IsLine budget d

variable {budget : Nat} {chunks : List (List Char)}

theorem isLine_cons {c : List Char} {cs : List (List Char)} :
    IsLine budget (c :: cs) ↔
      cs = [] ∨ c.length + (cs.map (fun d => d.length + 1)).sum ≤ budget := by
  rw [IsLine, length_spaced_cons, List.length_cons, Nat.add_eq_right, List.length_eq_zero_iff,
    Or.comm]

theorem IsLine.tail {c : List Char} {cs : List (List Char)} (h : IsLine budget (c :: cs))
    (some : cs ≠ []) : IsLine budget cs := by
  obtain ⟨d, cs, rfl⟩ := List.exists_cons_of_ne_nil some
  have within := (isLine_cons.1 h).resolve_left some
  rw [List.map_cons, List.sum_cons] at within
  exact isLine_cons.2 (.inr (by omega))

namespace IsDivision

variable {c : List Char} {ds : List (List (List Char))}

theorem exists_first (h : IsDivision budget (c :: chunks) ds) :
    ∃ cs more, ds = (c :: cs) :: more ∧ IsLine budget (c :: cs) ∧ chunks = cs ++ more.flatten ∧
      IsDivision budget more.flatten more := by
  obtain ⟨whole, full, isLine⟩ := h
  rcases ds with _ | ⟨_ | ⟨d, cs⟩, more⟩
  · simp at whole
  · simp at full
  · simp only [List.flatten_cons, List.cons_append, List.cons.injEq] at whole
    obtain ⟨rfl, rfl⟩ := whole
    simp only [List.mem_cons, not_or] at full
    rw [List.forall_mem_cons] at isLine
    exact ⟨cs, more, rfl, isLine.1, rfl, rfl, full.2, isLine.2⟩

theorem exists_tail (h : IsDivision budget (c :: chunks) ds) :
    ∃ ds', IsDivision budget chunks ds' ∧ ds'.length ≤ ds.length := by
  obtain ⟨cs, more, rfl, first, rfl, division⟩ := h.exists_first
  by_cases some : cs = []
  · subst some
    exact ⟨more, division, Nat.le_succ _⟩
  · refine ⟨cs :: more, ⟨rfl, ?_, ?_⟩, Nat.le_refl _⟩
    · simpa [Ne.symm some] using division.full
    · rw [List.forall_mem_cons]
      exact ⟨first.tail some, division.isLine⟩

end IsDivision

/-! ### Filled lines -/

/-- With chunks on the current line, the filled lines are those of a division. -/
theorem exists_division_fillFrom {cs : List (List Char)} (some : cs ≠ []) (full : [] ∉ cs ++ chunks)
    (isLine : IsLine budget cs) : ∃ ds, fillFrom budget (spaced cs) chunks = ds.map spaced ∧
      IsDivision budget (cs ++ chunks) ds := by
  have written : (spaced cs).isEmpty = false := by
    obtain ⟨c, cs, rfl⟩ := List.exists_cons_of_ne_nil some
    have hc : c ≠ [] := by
      rintro rfl
      simp at full
    cases cs with
    | nil => simpa using hc
    | cons d cs => simp [spaced_cons c (List.cons_ne_nil d cs)]
  induction chunks generalizing cs with
  | nil =>
    refine ⟨[cs], by simp [fillFrom, written], by simp, by simp [Ne.symm some], ?_⟩
    simpa using isLine
  | cons c rest ih =>
    have hc : c ≠ [] := by
      rintro rfl
      simp at full
    have split : cs ++ c :: rest = (cs ++ [c]) ++ rest := by simp
    rw [fillFrom, written]
    simp only [Bool.false_eq_true, if_false]
    by_cases within : (spaced cs).length + 1 + c.length ≤ budget
    · have longer : spaced cs ++ ' ' :: c = spaced (cs ++ [c]) := by
        rw [spaced_append some (by simp), spaced_singleton]
      rw [if_pos within, longer, split]
      refine ih (by simp) (split ▸ full) (.inl ?_) (by simp [← longer])
      rw [← longer, List.length_append, List.length_cons]
      omega
    · have rest_full : [] ∉ [c] ++ rest := fun h => full (List.mem_append_right _ h)
      obtain ⟨ds, filled, whole, dsFull, lines⟩ :=
        ih (List.cons_ne_nil c []) rest_full (.inr rfl) (by simpa using hc)
      rw [spaced_singleton] at filled
      refine ⟨cs :: ds, by rw [if_neg within, filled, List.map_cons], ?_, ?_, ?_⟩
      · rw [List.flatten_cons, whole]
        rfl
      · simpa [Ne.symm some] using dsFull
      · rw [List.forall_mem_cons]
        exact ⟨isLine, lines⟩

/-- The filled lines are those of a division. -/
theorem exists_division_fill (full : [] ∉ chunks) (budget : Nat) :
    ∃ ds, fill budget chunks = ds.map spaced ∧ IsDivision budget chunks ds := by
  cases chunks with
  | nil => exact ⟨[], rfl, rfl, by simp, by simp⟩
  | cons c rest =>
    have single : IsLine budget [c] := .inr rfl
    obtain ⟨ds, filled, division⟩ := exists_division_fillFrom (List.cons_ne_nil c []) full single
    rw [spaced_singleton] at filled
    exact ⟨ds, filled, division⟩

/-- Filling stays ahead: where the current line and the next chunks `cs` keep to the budget, what
is filled from there on has no more lines than any division that sets these chunks on the current
line and the others on lines of their own. -/
theorem length_fillFrom_le {line : List Char} {cs : List (List Char)}
    {ds : List (List (List Char))} (whole : chunks = cs ++ ds.flatten)
    (first : cs = [] ∨ line.length + (cs.map (fun d => d.length + 1)).sum ≤ budget)
    (division : IsDivision budget ds.flatten ds) :
    (fillFrom budget line chunks).length ≤ ds.length + 1 := by
  induction chunks generalizing line cs ds with
  | nil =>
    rw [fillFrom]
    split <;> simp
  | cons c rest ih =>
    cases cs with
    | nil =>
      -- the division breaks the line here
      rw [List.nil_append] at whole
      rw [← whole] at division
      obtain ⟨ds', division', fewer⟩ := division.exists_tail
      obtain ⟨cs, more, rfl, own, rfl, later⟩ := division.exists_first
      have broken : (fillFrom budget c (cs ++ more.flatten)).length ≤ more.length + 1 :=
        ih rfl (isLine_cons.1 own) later
      rw [fillFrom]
      split
      · rw [List.length_cons]
        omega
      · split
        · have longer : (fillFrom budget (line ++ ' ' :: c) (cs ++ more.flatten)).length ≤
              ds'.length + 1 :=
            ih division'.whole.symm (.inl rfl) (by rwa [division'.whole])
          omega
        · rw [List.length_cons, List.length_cons]
          omega
    | cons d cs =>
      -- the division sets the chunk on the current line, and so does filling
      rw [List.cons_append, List.cons.injEq] at whole
      obtain ⟨rfl, rfl⟩ := whole
      have within := first.resolve_left (List.cons_ne_nil c cs)
      rw [List.map_cons, List.sum_cons] at within
      rw [fillFrom]
      split
      · exact ih rfl (.inr (by omega)) division
      · rw [if_pos (by omega)]
        refine ih rfl (.inr ?_) division
        rw [List.length_append, List.length_cons]
        omega

/-- No division has fewer lines than are filled. -/
theorem length_fill_le {ds : List (List (List Char))} (division : IsDivision budget chunks ds) :
    (fill budget chunks).length ≤ ds.length := by
  cases chunks with
  | nil => exact Nat.zero_le _
  | cons c rest =>
    obtain ⟨cs, more, rfl, own, rfl, later⟩ := division.exists_first
    show (fillFrom budget c (cs ++ more.flatten)).length ≤ more.length + 1
    exact length_fillFrom_le rfl (isLine_cons.1 own) later

/-! ### Running text -/

section Running

variable {page : Page} {depth : Nat} {t : Tag} {e : Extra} {cs : Forest Tag} {ps : List Piece}

theorem exists_of_layouts_running {candidates : List Candidate} (text : t.isText = false)
    (laid : layouts page .running depth ⟨t, e, cs⟩ = .ok candidates) :
    ∃ c, candidates = [c] ∧ c.output ≠ [] := by
  by_cases shallow : depth ≤ maxDepth
  case neg => simp [layouts, Nat.not_le.1 shallow] at laid
  rw [layouts_plain text (by simp) shallow] at laid
  obtain ⟨parts, -, laid⟩ := Except.bind_eq_ok.1 laid
  obtain ⟨offered, rendered, kept⟩ := Except.bind_eq_ok.1 laid
  rw [if_pos rfl, keepNaive] at kept
  cases hc : offered.find? (fun c => c.mode = .naive) with
  | none => simp [hc] at kept
  | some c =>
    rw [hc] at kept
    have head := head_of_mem_render rendered c (List.mem_of_find?_eq_some hc)
    refine ⟨c, (Except.ok.inj kept).symm, ?_⟩
    intro none
    simp [none] at head

theorem atom_nil_notMem_runningPieces (h : runningPieces page depth cs = .ok ps) :
    .atom [] ∉ ps := by
  induction cs generalizing ps with
  | nil =>
    obtain rfl := Except.ok.inj h
    simp
  | cons n rest ih =>
    obtain ⟨t, e, below⟩ := n
    cases text : t.isText with
    | true =>
      obtain ⟨value, rfl⟩ := Tag.eq_text_of_isText text
      rw [runningPieces] at h
      obtain ⟨more, others, same⟩ := Except.bind_eq_ok.1 h
      obtain rfl := Except.ok.inj same
      simpa using ih others
    | false =>
      rw [runningPieces_node text] at h
      obtain ⟨candidates, laid, h⟩ := Except.bind_eq_ok.1 h
      obtain ⟨more, others, same⟩ := Except.bind_eq_ok.1 h
      obtain rfl := Except.ok.inj same
      obtain ⟨c, rfl, shown⟩ := exists_of_layouts_running text laid
      rw [List.mem_cons, not_or]
      exact ⟨by simpa [atomOf] using Ne.symm shown, ih others⟩

theorem eq_chunksFrom_of_chunks? {chunks : List (List Char)} (h : chunks? ps = some chunks) :
    ps ≠ [] ∧ chunks = chunksFrom true ps := by
  unfold chunks? at h
  split at h
  · rename_i first last hfirst hlast
    refine ⟨?_, ?_⟩
    · rintro rfl
      simp at hfirst
    · split at h
      · simp at h
      · exact (Option.some.inj h).symm
  · simp at h

/-- Filling loses nothing and needs no line too many. The lines, put together with single spaces,
are the running text on one line unless a chunk is empty, which takes an atom without characters,
and no tag within running text is one. Each line keeps to the budget or is a single chunk, and no
division of the chunks into lines like that has fewer. -/
theorem fill_isShortest {chunks : List (List Char)} (h : chunks? ps = some chunks) (budget : Nat) :
    ([] ∈ chunks → .atom [] ∈ ps ∧ ∀ page depth cs, runningPieces page depth cs ≠ .ok ps) ∧
      ([] ∉ chunks → spaced (fill budget chunks) = ps.flatMap Piece.written ∧
        ∃ ds, fill budget chunks = ds.map spaced ∧ IsDivision budget chunks ds) ∧
      (∀ row ∈ fill budget chunks, row.length ≤ budget ∨ row ∈ chunks) ∧
      ∀ ds, IsDivision budget chunks ds → (fill budget chunks).length ≤ ds.length := by
  obtain ⟨ne, rfl⟩ := eq_chunksFrom_of_chunks? h
  refine ⟨fun empty => ?_, fun full => ?_, fun row hrow => ?_, fun ds => length_fill_le⟩
  · have atom : .atom [] ∈ ps := by
      by_contra some
      exact nil_notMem_chunksFrom ne some empty
    exact ⟨atom, fun page depth cs printed => atom_nil_notMem_runningPieces printed atom⟩
  · obtain ⟨ds, filled, division⟩ := exists_division_fill full budget
    refine ⟨?_, ds, filled, division⟩
    rw [filled, spaced_flatten division.full, division.whole, spaced_chunksFrom]
  · rcases fits_or_mem_of_mem_fillFrom hrow with short | mem
    · exact .inl short
    · rcases List.mem_cons.1 mem with rfl | mem
      · exact .inl (Nat.zero_le _)
      · exact .inr mem

end Running

def oldDoorText : List Piece :=
  "see ".toList.map .char ++
    .atom "<Link to=(door)>it</Link>".toList :: " now or never".toList.map .char

theorem fill_isShortest_oldDoorText :
    ∃ chunks, chunks? oldDoorText = some chunks ∧
      fill 6 chunks =
        ["see".toList, "<Link to=(door)>it</Link>".toList, "now or".toList, "never".toList] ∧
      (([] ∈ chunks → .atom [] ∈ oldDoorText ∧
          ∀ page depth cs, runningPieces page depth cs ≠ .ok oldDoorText) ∧
        ([] ∉ chunks → spaced (fill 6 chunks) = oldDoorText.flatMap Piece.written ∧
          ∃ ds, fill 6 chunks = ds.map spaced ∧ IsDivision 6 chunks ds) ∧
        (∀ row ∈ fill 6 chunks, row.length ≤ 6 ∨ row ∈ chunks) ∧
        ∀ ds, IsDivision 6 chunks ds → (fill 6 chunks).length ≤ ds.length) :=
  ⟨_, rfl, by decide, fill_isShortest rfl 6⟩

/-- A line that starts with an empty chunk loses the space after it. -/
theorem spaced_fill_atomWithoutCharacters :
    chunks? [.atom [], .char ' ', .char 'x'] = some [[], ['x']] ∧
      spaced (fill 10 [[], ['x']]) = ['x'] ∧
      [.atom [], .char ' ', .char 'x'].flatMap Piece.written ≠ ['x'] := by
  decide

end WorldMarkup.Layout
