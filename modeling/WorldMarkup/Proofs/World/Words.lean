import Mathlib.Data.List.TakeWhile
import WorldMarkup.World.Expression

/-!
The names of an expression, told by its one division into literals, words and other characters.
Main statement: they are the words that start with no digit, are no keyword and come after no
point, each once and in order of first appearance, whatever the literals hold.
-/

set_option autoImplicit false
set_option relaxedAutoImplicit false

namespace WorldMarkup.Expression

/-! ### The division -/

/-- A stretch of an expression. -/
inductive Segment
  | literal (quote : Char) (content : List Char) (closed : Bool)
  | word (chars : List Char)
  | other (c : Char)

namespace Segment

def text : Segment → List Char
  | literal q content closed => q :: (content ++ if closed then [q] else [])
  | word w => w
  | other c => [c]

/-- What later characters see of a segment: a literal counts as its quote. -/
def shown : Segment → List Char
  | literal q _ _ => [q]
  | word w => w
  | other c => [c]

def piece : Segment → Piece
  | literal q _ _ => .literal q
  | word w => .word w
  | other c => .other c

end Segment

/-- What a literal holds: no quote stands in it, but for one that a backslash takes along. Only in
a literal that is not closed may a backslash stand last. -/
inductive IsContent (q : Char) (closed : Bool) : List Char → Prop
  | nil : IsContent q closed []
  | last (opened : closed = false) : IsContent q closed ['\\']
  | escaped {c : Char} {cs : List Char} (rest : IsContent q closed cs) :
      IsContent q closed ('\\' :: c :: cs)
  | plain {c : Char} {cs : List Char} (quote : c ≠ q) (backslash : c ≠ '\\')
      (rest : IsContent q closed cs) : IsContent q closed (c :: cs)

/-- A division from left to right: a literal goes on to the next quote of its sort that no
backslash takes along, or else to the end, and a word goes on as long as it can. -/
inductive IsDivision : List Segment → Prop
  | nil : IsDivision []
  | literal {q : Char} {content : List Char} {closed : Bool} {segs : List Segment}
      (quote : isQuote q = true) (inside : IsContent q closed content)
      (toEnd : closed = false → segs = []) (rest : IsDivision segs) :
      IsDivision (.literal q content closed :: segs)
  | word {w : List Char} {segs : List Segment} (ne : w ≠ []) (chars : ∀ c ∈ w, isWordChar c = true)
      (maximal : ∀ c ∈ (segs.flatMap Segment.text).head?, isWordChar c = false)
      (rest : IsDivision segs) : IsDivision (.word w :: segs)
  | other {c : Char} {segs : List Segment} (quote : isQuote c = false)
      (wordChar : isWordChar c = false) (rest : IsDivision segs) : IsDivision (.other c :: segs)

theorem isQuote_apart {c : Char} (h : isQuote c = true) :
    c ≠ '\\' ∧ c ≠ '.' ∧ Text.isBlank c = false ∧ isWordChar c = false := by
  simp only [isQuote, Bool.or_eq_true, beq_iff_eq] at h
  rcases h with (rfl | rfl) | rfl <;> decide

theorem isQuote_of_isWordChar {c : Char} (h : isWordChar c = true) : isQuote c = false := by
  by_contra quote
  simp [isQuote_apart (by simpa using quote)] at h

section Literals

variable {q : Char} {closed : Bool} {content rest : List Char}

theorem afterLiteral_content (quote : isQuote q = true) (inside : IsContent q closed content)
    (toEnd : closed = false → rest = []) :
    afterLiteral q (content ++ (if closed then [q] else []) ++ rest) = rest := by
  induction inside with
  | nil =>
    cases closed with
    | false => simp [afterLiteral, toEnd rfl]
    | true => simp [afterLiteral.eq_def, isQuote_apart quote]
  | last opened => simp [afterLiteral, opened, toEnd opened]
  | escaped _ ih => simpa [afterLiteral] using ih
  | plain hq hb _ ih => simpa [afterLiteral.eq_def q (_ :: _), hq, hb] using ih

theorem exists_content (q : Char) (cs : List Char) :
    ∃ content closed, IsContent q closed content ∧ (closed = false → afterLiteral q cs = []) ∧
      cs = content ++ (if closed then [q] else []) ++ afterLiteral q cs := by
  fun_induction afterLiteral q cs with
  | case1 => exact ⟨[], false, .nil, fun _ => rfl, rfl⟩
  | case2 c hc =>
    obtain rfl : c = '\\' := by simpa using hc
    exact ⟨['\\'], false, .last rfl, fun _ => rfl, rfl⟩
  | case3 c hc d rest ih =>
    obtain rfl : c = '\\' := by simpa using hc
    obtain ⟨content, closed, inside, toEnd, same⟩ := ih
    refine ⟨'\\' :: d :: content, closed, inside.escaped, toEnd, ?_⟩
    rw [List.cons_append, List.cons_append, List.cons_append, List.cons_append, ← same]
  | case4 c rest _ hq =>
    obtain rfl : c = q := by simpa using hq
    exact ⟨[], true, .nil, by simp, rfl⟩
  | case5 c rest hc hq ih =>
    obtain ⟨content, closed, inside, toEnd, same⟩ := ih
    refine ⟨c :: content, closed, inside.plain (by simpa using hq) (by simpa using hc), toEnd, ?_⟩
    rw [List.cons_append, List.cons_append, ← same]

/-- A literal is told by its text: what it holds and whether it is closed. -/
theorem IsContent.unique {closed' : Bool} {content' rest' : List Char} (quote : isQuote q = true)
    (inside : IsContent q closed content) (inside' : IsContent q closed' content')
    (toEnd : closed = false → rest = []) (toEnd' : closed' = false → rest' = [])
    (same : content ++ (if closed then [q] else []) ++ rest =
      content' ++ (if closed' then [q] else []) ++ rest') :
    content = content' ∧ closed = closed' := by
  have apart := (isQuote_apart quote).1
  induction inside generalizing content' with
  | nil => cases inside' <;> grind
  | last _ => cases inside' <;> grind
  | escaped _ ih =>
    cases inside' with
    | escaped inside' =>
      obtain ⟨h, h'⟩ := List.cons.inj (List.cons.inj same).2
      obtain ⟨rfl, rfl⟩ := ih inside' h'
      exact ⟨by rw [h], rfl⟩
    | _ => grind
  | plain hq hb _ ih =>
    cases inside' with
    | plain _ _ inside' =>
      obtain ⟨h, h'⟩ := List.cons.inj same
      obtain ⟨rfl, rfl⟩ := ih inside' h'
      exact ⟨by rw [h], rfl⟩
    | _ => grind

theorem isContent_of_notMem (quote : q ∉ content) (backslash : '\\' ∉ content) :
    IsContent q closed content := by
  induction content with
  | nil => exact .nil
  | cons c content ih =>
    simp only [List.mem_cons, not_or] at quote backslash
    exact .plain (Ne.symm quote.1) (Ne.symm backslash.1) (ih quote.2 backslash.2)

end Literals

section Divisions

variable {segs segs' : List Segment}

theorem takeWhile_wordChars {w rest : List Char} (chars : ∀ c ∈ w, isWordChar c = true)
    (maximal : ∀ c ∈ rest.head?, isWordChar c = false) :
    (w ++ rest).takeWhile isWordChar = w ∧ (w ++ rest).dropWhile isWordChar = rest := by
  rw [List.takeWhile_append_of_pos chars, List.dropWhile_append_of_pos chars]
  cases rest with
  | nil => simp
  | cons c rest => simp [maximal c (by simp)]

theorem pieces_text (h : IsDivision segs) :
    pieces (segs.flatMap Segment.text) = segs.map Segment.piece := by
  induction h with
  | nil => simp [pieces]
  | @literal q content closed segs quote inside toEnd _ ih =>
    have last : closed = false → segs.flatMap Segment.text = [] := fun opened => by
      simp [toEnd opened]
    have past := afterLiteral_content quote inside last
    rw [List.flatMap_cons, Segment.text, List.cons_append, pieces, if_pos quote, past, ih]
    rfl
  | @word w segs ne chars maximal _ ih =>
    obtain ⟨c, w, rfl⟩ := List.exists_cons_of_ne_nil ne
    have hc := chars c (by simp)
    obtain ⟨taken, left⟩ := takeWhile_wordChars
      (fun d hd => chars d (List.mem_cons_of_mem c hd)) maximal
    rw [List.flatMap_cons, Segment.text, List.cons_append, pieces,
      if_neg (by simp [isQuote_of_isWordChar hc]), if_pos hc, taken, left, ih]
    rfl
  | @other c segs quote wordChar _ ih =>
    rw [List.flatMap_cons, Segment.text, List.singleton_append, pieces, if_neg (by simp [quote]),
      if_neg (by simp [wordChar]), ih]
    rfl

theorem IsDivision.eq_nil (h : IsDivision segs) (none : segs.flatMap Segment.text = []) :
    segs = [] := by
  cases h with
  | nil => rfl
  | word ne => exact absurd (List.append_eq_nil_iff.1 none).1 ne
  | _ => simp [Segment.text] at none

theorem exists_isDivision (cs : List Char) :
    ∃ segs, IsDivision segs ∧ segs.flatMap Segment.text = cs := by
  induction cs using pieces.induct with
  | case1 => exact ⟨[], .nil, rfl⟩
  | case2 c rest quote _ ih =>
    obtain ⟨segs, h, same⟩ := ih
    obtain ⟨content, closed, inside, toEnd, whole⟩ := exists_content c rest
    refine ⟨.literal c content closed :: segs, .literal quote inside ?_ h, ?_⟩
    · intro opened
      exact h.eq_nil (same.trans (toEnd opened))
    · rw [List.flatMap_cons, same, Segment.text, List.cons_append, ← whole]
  | case3 c rest _ wordChar _ ih =>
    obtain ⟨segs, h, same⟩ := ih
    refine ⟨.word (c :: rest.takeWhile isWordChar) :: segs, .word (by simp) ?_ ?_ h, ?_⟩
    · intro d hd
      rcases List.mem_cons.1 hd with rfl | hd
      · exact wordChar
      · exact List.mem_takeWhile_imp hd
    · intro d hd
      rw [same] at hd
      have stops := List.head?_dropWhile_not isWordChar rest
      rw [Option.mem_def.1 hd] at stops
      simpa using stops
    · rw [List.flatMap_cons, same, Segment.text, List.cons_append, List.takeWhile_append_dropWhile]
  | case4 c rest quote wordChar ih =>
    obtain ⟨segs, h, same⟩ := ih
    refine ⟨.other c :: segs, .other (by simpa using quote) (by simpa using wordChar) h, ?_⟩
    rw [List.flatMap_cons, same, Segment.text, List.singleton_append]

/-- Two divisions of one text have the same pieces, so that only their literals could differ. -/
theorem IsDivision.unique (h : IsDivision segs) (h' : IsDivision segs')
    (same : segs.flatMap Segment.text = segs'.flatMap Segment.text) : segs = segs' := by
  have alike : segs.map Segment.piece = segs'.map Segment.piece := by
    rw [← pieces_text h, ← pieces_text h', same]
  induction h generalizing segs' with
  | nil => exact (List.map_eq_nil_iff.1 alike.symm).symm
  | literal quote inside toEnd _ ih =>
    cases h' with
    | literal _ inside' toEnd' rest' =>
      obtain ⟨headAlike, tailAlike⟩ := List.cons.inj alike
      obtain rfl := Piece.literal.inj headAlike
      obtain ⟨rfl, rfl⟩ := inside.unique quote inside' (fun opened => by simp [toEnd opened])
        (fun opened => by simp [toEnd' opened]) (List.cons.inj same).2
      rw [ih rest' (List.append_cancel_left same) tailAlike]
    | _ => simp [Segment.piece] at alike
  | word _ _ _ _ ih =>
    cases h' with
    | word _ _ _ rest' =>
      obtain ⟨headAlike, tailAlike⟩ := List.cons.inj alike
      obtain rfl := Piece.word.inj headAlike
      rw [ih rest' (List.append_cancel_left same) tailAlike]
    | _ => simp [Segment.piece] at alike
  | other _ _ _ ih =>
    cases h' with
    | other _ _ rest' =>
      obtain ⟨headAlike, tailAlike⟩ := List.cons.inj alike
      obtain rfl := Piece.other.inj headAlike
      rw [ih rest' (List.append_cancel_left same) tailAlike]
    | _ => simp [Segment.piece] at alike

theorem IsDivision.replace {front back : List Segment} {q : Char} {content content' : List Char}
    {closed : Bool} (h : IsDivision (front ++ .literal q content closed :: back))
    (quote : q ∉ content') (backslash : '\\' ∉ content') :
    IsDivision (front ++ .literal q content' closed :: back) := by
  induction front with
  | nil =>
    cases h with
    | literal hq _ toEnd rest => exact .literal hq (isContent_of_notMem quote backslash) toEnd rest
  | cons s front ih =>
    rw [List.cons_append] at h
    cases h with
    | literal hq hc toEnd rest =>
      refine .literal hq hc (fun opened => ?_) (ih rest)
      simpa using toEnd opened
    | word ne chars maximal rest =>
      refine .word ne chars ?_ (ih rest)
      -- a literal begins with its quote, whatever it holds
      simpa [Segment.text] using maximal
    | other hq hw rest => exact .other hq hw (ih rest)

end Divisions

/-! ### Names by their places -/

/-- The nearest character before what comes next that is not blank. -/
def before? (segs : List Segment) : Option Char :=
  (segs.flatMap Segment.shown).reverse.find? (fun c => !Text.isBlank c)

/-- The word at place `i` reads the name `x`. -/
structure Reads (segs : List Segment) (i : Nat) (x : String) : Prop where
  word : segs[i]? = some (.word x.toList)
  noDigit : ∀ c ∈ x.toList.head?, c.isDigit = false
  noKeyword : x ∉ ["true", "false", "null", "undefined"]
  free : before? (segs.take i) ≠ some '.'

/-- The name that a segment reads after what stands before it. -/
def Segment.name? (before : Option Char) : Segment → Option String
  | word w => if before ≠ some '.' ∧ isName w = true then some (String.ofList w) else none
  | _ => none

def readAt? (segs : List Segment) (i : Nat) : Option String :=
  segs[i]?.bind (Segment.name? (before? (segs.take i)))

theorem readAt?_eq_some_iff (segs : List Segment) (i : Nat) (x : String) :
    readAt? segs i = some x ↔ Reads segs i x := by
  have named : isName x.toList = true ↔
      (∀ c ∈ x.toList.head?, c.isDigit = false) ∧ x ∉ ["true", "false", "null", "undefined"] := by
    rw [isName, List.headD_eq_head?_getD, String.ofList_toList, Bool.and_eq_true, keywords]
    cases x.toList.head? <;> simp
  constructor
  · intro h
    obtain ⟨s, place, h⟩ := Option.bind_eq_some_iff.1 h
    cases s with
    | word w =>
      obtain ⟨⟨free, hw⟩, same⟩ := Option.ite_none_right_eq_some.1 h
      obtain rfl := Option.some.inj same
      rw [← String.toList_ofList (l := w)] at hw
      exact ⟨by rw [place, String.toList_ofList], (named.1 hw).1, (named.1 hw).2, free⟩
    | _ => simp [Segment.name?] at h
  · intro h
    simp [readAt?, h.word, Segment.name?, h.free, named.2 ⟨h.noDigit, h.noKeyword⟩]

section Places

variable {front segs : List Segment}

theorem before?_concat (s : Segment) :
    before? (front ++ [s]) =
      (s.shown.reverse.find? (fun c => !Text.isBlank c)).or (before? front) := by
  simp [before?, List.find?_append]

theorem before?_literal {q : Char} {content : List Char} {closed : Bool}
    (quote : isQuote q = true) : before? (front ++ [.literal q content closed]) = some q := by
  simp [before?_concat, Segment.shown, isQuote_apart quote]

theorem isWordChar_apart {c : Char} (h : isWordChar c = true) :
    Text.isBlank c = false ∧ c ≠ '.' := by
  constructor
  · have ranges : ((decide (c.val ≥ 65 ∧ c.val ≤ 90) || (c.val ≥ 97 && c.val ≤ 122) ||
        (c.val ≥ 48 && c.val ≤ 57)) || c == '_' || c == '$') = true := h
    have codes : c.val.toNat = c.toNat := rfl
    simp only [Bool.or_eq_true, Bool.and_eq_true, decide_eq_true_eq, beq_iff_eq, ge_iff_le,
      UInt32.le_iff_toNat_le, ← Char.toNat_inj] at ranges
    simp only [UInt32.reduceToNat, codes, Char.reduceToNat] at ranges
    simp only [Text.isBlank, Bool.or_eq_false_iff, Bool.and_eq_false_iff, decide_eq_false_iff_not,
      beq_eq_false_iff_ne]
    omega
  · rintro rfl
    exact absurd h (by decide)

theorem before?_word {w : List Char} (ne : w ≠ []) (chars : ∀ c ∈ w, isWordChar c = true) :
    before? (front ++ [.word w]) ≠ some '.' := by
  rcases List.eq_nil_or_concat w with rfl | ⟨w, c, rfl⟩
  · exact absurd rfl ne
  · obtain ⟨blank, point⟩ := isWordChar_apart (chars c (by simp))
    simp [before?_concat, Segment.shown, blank, point]

theorem before?_other (c : Char) :
    before? (front ++ [.other c]) = if Text.isBlank c then before? front else some c := by
  cases h : Text.isBlank c <;> simp [before?_concat, Segment.shown, h]

/-- The running flag of `names` tells whether a point is the nearest character before: one step of
`names` adds what the first segment reads and goes on after it. -/
theorem names_cons {s : Segment} (h : IsDivision (s :: segs)) (front : List Segment) :
    names (before? front == some '.') ((s :: segs).map Segment.piece) =
      (s.name? (before? front)).toList ++
        names (before? (front ++ [s]) == some '.') (segs.map Segment.piece) := by
  rw [List.map_cons]
  cases h with
  | literal quote _ _ _ =>
    have flag : (some _ == some '.') = false :=
      beq_eq_false_iff_ne.2 (fun same => (isQuote_apart quote).2.1 (Option.some.inj same))
    rw [before?_literal quote, flag]
    rfl
  | word ne chars _ _ =>
    have flag : (before? (front ++ [.word _]) == some '.') = false :=
      beq_eq_false_iff_ne.2 (before?_word ne chars)
    rw [flag, Segment.piece, names, Segment.name?]
    split <;> simp_all
  | @other c _ _ _ _ =>
    rw [before?_other, Segment.piece, names]
    split <;> rfl

theorem IsDivision.tail {s : Segment} (h : IsDivision (s :: segs)) : IsDivision segs := by
  cases h <;> assumption

theorem names_piece (h : IsDivision segs) (front : List Segment) :
    names (before? front == some '.') (segs.map Segment.piece) =
      (List.range' front.length segs.length).filterMap (readAt? (front ++ segs)) := by
  induction segs generalizing front with
  | nil => rfl
  | cons s segs ih =>
    have here : readAt? (front ++ s :: segs) front.length = s.name? (before? front) := by
      simp [readAt?]
    have next := ih h.tail (front ++ [s])
    rw [List.length_append, List.length_singleton, List.append_assoc, List.singleton_append] at next
    rw [names_cons h, next, List.length_cons, List.range'_succ, List.filterMap_cons, here]
    cases s.name? (before? front) <;> rfl

end Places

/-! ### First appearances -/

/-- What is read at rising places, each once, stands in order of first appearance. -/
theorem pairwise_eraseDups_filterMap {ks : List Nat} (rising : ks.Pairwise (· < ·))
    (f : Nat → Option String) :
    (ks.filterMap f).eraseDups.Pairwise
      (fun x y => ∃ i ∈ ks, f i = some x ∧ ∀ j ∈ ks, f j = some y → i < j) := by
  induction ks generalizing f with
  | nil => simp
  | cons k ks ih =>
    obtain ⟨least, rising⟩ := List.pairwise_cons.1 rising
    cases here : f k with
    | none =>
      rw [List.filterMap_cons_none here]
      refine (ih rising f).imp ?_
      rintro x y ⟨i, hi, hx, first⟩
      refine ⟨i, List.mem_cons_of_mem k hi, hx, fun j hj hy => ?_⟩
      rcases List.mem_cons.1 hj with rfl | hj
      · simp [here] at hy
      · exact first j hj hy
    | some a =>
      rw [List.filterMap_cons_some here, List.eraseDups_cons, List.filter_filterMap,
        List.pairwise_cons]
      -- the names after `a` are those of a reading that passes `a` over
      have other : ∀ {i : Nat} {x : String}, (f i).filter (fun b => !b == a) = some x ↔
          f i = some x ∧ x ≠ a := by simp [Option.filter_eq_some_iff]
      constructor
      · intro y hy
        obtain ⟨i, hi, hy⟩ := List.mem_filterMap.1 (List.mem_eraseDups.1 hy)
        refine ⟨k, by simp, here, fun j hj same => ?_⟩
        rcases List.mem_cons.1 hj with rfl | hj
        · exact absurd (Option.some.inj (same.symm.trans here)) (other.1 hy).2
        · exact least j hj
      · refine (ih rising _).imp_of_mem ?_
        rintro x y _ hy ⟨i, hi, hx, first⟩
        obtain ⟨_, _, hy⟩ := List.mem_filterMap.1 (List.mem_eraseDups.1 hy)
        refine ⟨i, List.mem_cons_of_mem k hi, (other.1 hx).1, fun j hj same => ?_⟩
        rcases List.mem_cons.1 hj with rfl | hj
        · exact absurd (Option.some.inj (same.symm.trans here)) (other.1 hy).2
        · exact first j hj (other.2 ⟨same, (other.1 hy).2⟩)

theorem identifiers_eq {segs : List Segment} {e : String} (h : IsDivision segs)
    (same : segs.flatMap Segment.text = e.toList) :
    identifiers e = ((List.range' 0 segs.length).filterMap (readAt? segs)).eraseDups := by
  have run := names_piece h []
  rw [show (before? [] == some '.') = false from rfl, ← pieces_text h, same] at run
  rw [identifiers, run]
  rfl

theorem identifiers_eq_of_piece {segs segs' : List Segment} {e e' : String} (h : IsDivision segs)
    (h' : IsDivision segs') (same : segs.flatMap Segment.text = e.toList)
    (same' : segs'.flatMap Segment.text = e'.toList)
    (alike : segs.map Segment.piece = segs'.map Segment.piece) :
    identifiers e = identifiers e' := by
  rw [identifiers, identifiers, ← same, ← same', pieces_text h, pieces_text h', alike]

theorem lt_length_of_reads {segs : List Segment} {i : Nat} {x : String} (h : Reads segs i x) :
    i < segs.length := (List.getElem?_eq_some_iff.1 h.word).1

theorem mem_identifiers_iff {segs : List Segment} {e : String} (h : IsDivision segs)
    (same : segs.flatMap Segment.text = e.toList) (x : String) :
    x ∈ identifiers e ↔ ∃ i, Reads segs i x := by
  rw [identifiers_eq h same, List.mem_eraseDups, List.mem_filterMap]
  constructor
  · rintro ⟨i, -, read⟩
    exact ⟨i, (readAt?_eq_some_iff segs i x).1 read⟩
  · rintro ⟨i, read⟩
    exact ⟨i, by simpa using lt_length_of_reads read, (readAt?_eq_some_iff segs i x).2 read⟩

theorem pairwise_identifiers {segs : List Segment} {e : String} (h : IsDivision segs)
    (same : segs.flatMap Segment.text = e.toList) :
    (identifiers e).Pairwise (fun x y => ∃ i, Reads segs i x ∧ ∀ j, Reads segs j y → i < j) := by
  rw [identifiers_eq h same]
  refine (pairwise_eraseDups_filterMap List.pairwise_lt_range' _).imp ?_
  rintro x y ⟨i, -, hx, first⟩
  refine ⟨i, (readAt?_eq_some_iff segs i x).1 hx, fun j hy => ?_⟩
  exact first j (by simpa using lt_length_of_reads hy) ((readAt?_eq_some_iff segs j y).2 hy)

/-- An expression has one division from left to right. Its names are exactly those its places read,
each once and in order of first appearance, and they stay the same whatever a literal holds. -/
theorem identifiers_eq_reads (e : String) :
    ∃ segs, IsDivision segs ∧ segs.flatMap Segment.text = e.toList ∧
      (∀ segs', IsDivision segs' → segs'.flatMap Segment.text = e.toList → segs' = segs) ∧
      (∀ x, x ∈ identifiers e ↔ ∃ i, Reads segs i x) ∧
      (identifiers e).Nodup ∧
      (identifiers e).Pairwise (fun x y => ∃ i, Reads segs i x ∧ ∀ j, Reads segs j y → i < j) ∧
      ∀ (front back : List Segment) (q : Char) (content content' : List Char) (closed : Bool),
        segs = front ++ .literal q content closed :: back → q ∉ content' → '\\' ∉ content' →
        identifiers (String.ofList
          ((front ++ .literal q content' closed :: back).flatMap Segment.text)) =
        identifiers e := by
  obtain ⟨segs, h, same⟩ := exists_isDivision e.toList
  refine ⟨segs, h, same, ?_, mem_identifiers_iff h same, ?_, pairwise_identifiers h same, ?_⟩
  · intro segs' h' same'
    exact h'.unique h (same'.trans same.symm)
  · refine (pairwise_identifiers h same).imp ?_
    rintro x y ⟨i, hx, first⟩ rfl
    exact absurd (first i hx) (lt_irrefl i)
  · rintro front back q content content' closed rfl quote backslash
    refine identifiers_eq_of_piece (h.replace quote backslash) h ?_ same ?_
    · rw [String.toList_ofList]
    · simp [Segment.piece]

example : identifiers "a . b + 'it\\'s.x' + c1 == a" = ["a", "c1"] := by cbv

end WorldMarkup.Expression
