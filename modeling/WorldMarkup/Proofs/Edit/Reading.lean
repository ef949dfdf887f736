import Mathlib.Data.List.Forall2
import WorldMarkup.Proofs.Edit.Blanks
import WorldMarkup.Proofs.Edit.Remainders
import WorldMarkup.Proofs.Tree.Filtering

/-!
What a reader makes of running content, where blanks that follow one another count as one. A text
cut off at a blank leaves a space in the place of the blank, so it reads the same. Main statement:
what one side of a comparison goes on with, set at the boundary of the other side, reads as the
longer side does.
-/

set_option autoImplicit false
set_option relaxedAutoImplicit false

namespace WorldMarkup

/-! ### Running content -/

/-- A mark in writing: a line break is written as the character for it, a link as what it holds. -/
def Mark.written (breakMark : Char) : Mark → List Char
  | .char c => [c]
  | .space => [' ']
  | .lineBreak => [breakMark]
  | .link _ => []

/-- What a reader makes of a single node, what it holds left aside. -/
def Tag.reading (breakMark : Char) (t : Tag) : List Char :=
  t.marks.flatMap (Mark.written breakMark)

def Forest.reading (breakMark : Char) (t : Forest Tag) : List Char :=
  (Forest.marks t).flatMap (Mark.written breakMark)

section

variable {breakMark : Char}

theorem Tag.reading_text (value : String) : (Tag.text value).reading breakMark = value.toList := by
  simp [reading, marks, List.flatMap_map, Mark.written]

theorem Forest.reading_cons (d : Tag) (e : Extra) (cs rest : Forest Tag) :
    Forest.reading breakMark (⟨d, e, cs⟩ :: rest) =
      d.reading breakMark ++ Forest.reading breakMark cs ++ Forest.reading breakMark rest := by
  simp [reading, Tag.reading, marks_cons]

theorem Alignment.collapse_excessLeaves (e : Extra) (excess : List Char) :
    Text.collapse ((excessLeaves e excess).flatMap (fun l => l.1.reading breakMark)) =
      Text.collapse excess := by
  have spaces (blanks : List Char) :
      (spacesFor blanks).flatMap (fun l => l.1.reading breakMark) = Text.spaceFor blanks := by
    rw [spacesFor, Text.spaceFor]
    split <;> rfl
  rw [← Text.collapse_trim excess, excessLeaves_eq, List.flatMap_append, List.flatMap_append,
    spaces, spaces]
  congr 3
  split
  · rename_i none
    rw [none]
    rfl
  · simp [Tag.reading_text]

/-- What a reader makes of the node at the end of a path. -/
def Path.reading (breakMark : Char) (p : Path Tag) : List Char :=
  match p.getLast? with
  | some s => s.data.reading breakMark
  | none => []

theorem Path.reading_concat (q : Path Tag) (s : Step Tag) :
    Path.reading breakMark (q ++ [s]) = s.data.reading breakMark := by
  rw [reading, List.getLast?_concat]

/-! ### Reading what is left -/

namespace Alignment

theorem reading_of_samePath {a b : Path Tag} (h : samePath a b = true) :
    Path.reading breakMark a = Path.reading breakMark b := by
  have last := congrArg List.getLast? (samePath_eq_true.1 h)
  rw [List.getLast?_map, List.getLast?_map] at last
  rw [Path.reading, Path.reading]
  cases ha : a.getLast? <;> cases hb : b.getLast? <;> simp_all

theorem reading_of_areAlike {as bs : List (Path Tag)} (h : AreAlike as bs) :
    as.flatMap (Path.reading breakMark) = bs.flatMap (Path.reading breakMark) := by
  induction h with
  | nil => rfl
  | cons same _ ih => rw [List.flatMap_cons, List.flatMap_cons, reading_of_samePath same, ih]

theorem reading_of_endText? {a : Path Tag} {value : String} (h : endText? a = some value) :
    Path.reading breakMark a = value.toList := by
  obtain ⟨q, e, o, rfl⟩ := endText?_eq_some.1 h
  rw [Path.reading_concat, Tag.reading_text]

theorem collapse_excessPaths (breakMark : Char) {a : Path Tag} {value : String}
    (h : endText? a = some value) (x : List Char) (side : List (Path Tag)) :
    Text.collapse ((excessPaths a x side).flatMap (Path.reading breakMark)) = Text.collapse x := by
  obtain ⟨q, e, o, rfl⟩ := endText?_eq_some.1 h
  have written (number : Nat) (leaves : List (Tag × Extra)) :
      (withLeaves q number leaves).flatMap (Path.reading breakMark) =
        leaves.flatMap (fun l => l.1.reading breakMark) := by
    induction leaves generalizing number with
    | nil => rfl
    | cons l leaves ih =>
      rw [withLeaves, List.flatMap_cons, List.flatMap_cons, Path.reading_concat, ih]
  rw [excessPaths, List.getLast?_concat, List.dropLast_concat]
  dsimp only
  rw [written, collapse_excessLeaves]

theorem eq_nil_of_excessPaths {a : Path Tag} {value : String} (h : endText? a = some value)
    {x : List Char} {side : List (Path Tag)} (none : excessPaths a x side = []) : x = [] := by
  have := collapse_excessPaths ' ' h x side
  rw [none] at this
  exact Text.collapse_eq_nil.1 this.symm

/-- The first path of a pair that leaves nothing over on the second side reads as the second and
what is left over, together. -/
theorem collapse_of_fits (breakMark : Char) {boundary : Boundary} {o : Overlap} {a b : Path Tag}
    (fits : o.Fits boundary a b) {side' : List (Path Tag)} (none : o.swap.paths b side' = [])
    (side : List (Path Tag)) :
    Text.collapse (Path.reading breakMark a) = Text.collapse (boundary.extend
      (Path.reading breakMark b) ((o.paths a side).flatMap (Path.reading breakMark))) := by
  cases o with
  | same =>
    rw [reading_of_samePath fits]
    simp [Overlap.paths]
  | firstLonger x =>
    obtain ⟨-, -, s, t, hs, ht, hx⟩ := fits
    have left := collapse_excessPaths breakMark hs x side
    rw [reading_of_endText? hs, reading_of_endText? ht, hx, Overlap.paths]
    cases boundary with
    | start => simpa using Text.collapse_congr left.symm t.toList []
    | finish => simpa using Text.collapse_congr left.symm [] t.toList
  | secondLonger x =>
    obtain ⟨-, -, t, s, ht, hs, hx⟩ := fits
    obtain rfl := eq_nil_of_excessPaths ht none
    rw [reading_of_endText? hs, reading_of_endText? ht, hx]
    simp [Overlap.paths]

theorem reading_of_fits {boundary : Boundary} {o : Overlap} {a b : Path Tag}
    (fits : o.Fits boundary a b) {side side' : List (Path Tag)} (none : o.paths a side = [])
    (none' : o.swap.paths b side' = []) :
    Path.reading breakMark a = Path.reading breakMark b := by
  cases o with
  | same => exact reading_of_samePath fits
  | firstLonger x =>
    obtain ⟨-, -, s, t, hs, ht, hx⟩ := fits
    obtain rfl := eq_nil_of_excessPaths hs none
    rw [reading_of_endText? hs, reading_of_endText? ht, hx, Boundary.extend_nil]
  | secondLonger x =>
    obtain ⟨-, -, t, s, ht, hs, hx⟩ := fits
    obtain rfl := eq_nil_of_excessPaths ht none'
    rw [reading_of_endText? hs, reading_of_endText? ht, hx, Boundary.extend_nil]

theorem joined_eq_nil {boundary : Boundary} {excess rest : List (Path Tag)} :
    joined boundary excess rest = [] ↔ excess = [] ∧ rest = [] := by
  cases boundary <;> simp [joined, and_comm]

theorem collapse_of_remainders (breakMark : Char) {boundary : Boundary}
    {base edit b : List (Path Tag)} (h : remainders? boundary base edit = some (b, [])) :
    Text.collapse (base.flatMap (Path.reading breakMark)) = Text.collapse (boundary.extend
      (edit.flatMap (Path.reading breakMark)) (b.flatMap (Path.reading breakMark))) := by
  rcases remainders?_eq_some h with ⟨-, rfl, rfl⟩ | ⟨front, front', m, meeting, rfl, none⟩
  · cases boundary <;> simp
  obtain ⟨none, last⟩ := joined_eq_nil.1 none.symm
  have pair := collapse_of_fits breakMark meeting.fits none base
  generalize m.overlap.paths m.pair.1 base = left at pair ⊢
  have first := meeting.first
  have second := meeting.second
  rw [last] at second
  cases boundary with
  | start =>
    have before : front.flatMap (Path.reading breakMark) = front'.flatMap (Path.reading breakMark) :=
      reading_of_areAlike meeting.alike
    have whole := Text.collapse_congr pair (front'.flatMap (Path.reading breakMark))
      (m.firstRest.flatMap (Path.reading breakMark))
    simp only [toward] at first second
    rw [first, second]
    simpa [before, joined] using whole
  | finish =>
    have behind : front.reverse.flatMap (Path.reading breakMark) =
        front'.reverse.flatMap (Path.reading breakMark) :=
      reading_of_areAlike (List.forall₂_reverse_iff.2 meeting.alike)
    have whole := Text.collapse_congr pair (m.firstRest.reverse.flatMap (Path.reading breakMark))
      (front'.reverse.flatMap (Path.reading breakMark))
    rw [toward, List.reverse_eq_iff] at first second
    rw [first, second]
    simpa [behind, joined] using whole

/-- Sides that leave nothing over read the same. -/
theorem reading_of_remainders {boundary : Boundary} {base edit : List (Path Tag)}
    (h : remainders? boundary base edit = some ([], [])) :
    base.flatMap (Path.reading breakMark) = edit.flatMap (Path.reading breakMark) := by
  rcases remainders?_eq_some h with ⟨-, rfl, rfl⟩ | ⟨front, front', m, meeting, none, none'⟩
  · rfl
  obtain ⟨none, last⟩ := joined_eq_nil.1 none.symm
  obtain ⟨none', last'⟩ := joined_eq_nil.1 none'.symm
  have pair : Path.reading breakMark m.pair.1 = Path.reading breakMark m.pair.2 :=
    reading_of_fits meeting.fits none none'
  have first := meeting.first
  have second := meeting.second
  rw [last] at first
  rw [last'] at second
  cases boundary with
  | start =>
    have before : front.flatMap (Path.reading breakMark) = front'.flatMap (Path.reading breakMark) :=
      reading_of_areAlike meeting.alike
    simp only [toward] at first second
    simp [first, second, before, pair]
  | finish =>
    have behind : front.reverse.flatMap (Path.reading breakMark) =
        front'.reverse.flatMap (Path.reading breakMark) :=
      reading_of_areAlike (List.forall₂_reverse_iff.2 meeting.alike)
    rw [toward, List.reverse_eq_iff] at first second
    simp [first, second, behind, pair]

end Alignment

/-! ### Prose -/

/-- A path of running content: links down to what stands at the end. -/
structure Path.IsProse (p : Path Tag) : Prop where
  inline : ∀ s ∈ p, s.data.category = .inline
  links : ∀ s ∈ p.dropLast, ∃ target, s.data = .link target

theorem Path.IsProse.replaceLast {q : Path Tag} {s l : Step Tag} (h : Path.IsProse (q ++ [s]))
    (inline : l.data.category = .inline) : Path.IsProse (q ++ [l]) where
  inline x hx := by
    rcases List.mem_append.1 hx with hx | hx
    · exact h.inline x (by simp [hx])
    · obtain rfl := List.mem_singleton.1 hx
      exact inline
  links x hx := h.links x (by simpa using hx)

theorem Path.IsProse.below {s : Step Tag} {p : Path Tag} (h : Path.IsProse (s :: p)) (ne : p ≠ []) :
    Path.IsProse p ∧ ∃ target, s.data = .link target := by
  have last : (s :: p).dropLast = s :: p.dropLast := List.dropLast_cons_of_ne_nil ne
  have links := h.links
  rw [last] at links
  obtain ⟨link, below⟩ := List.forall_mem_cons.1 links
  exact ⟨⟨(List.forall_mem_cons.1 h.inline).2, below⟩, link⟩

theorem Path.reading_cons {s : Step Tag} {p : Path Tag} (ne : p ≠ []) :
    Path.reading breakMark (s :: p) = Path.reading breakMark p := by
  rw [reading, reading, List.getLast?_cons_of_ne_nil ne]

theorem Forest.reading_routes {g : Growth Tag} (prose : ∀ p ∈ routes g, Path.IsProse p) :
    Forest.reading breakMark (Growth.forest g) =
      (routes g).flatMap (Path.reading breakMark) := by
  unfold Growth.forest
  induction g using Forest.induction with
  | nil => rfl
  | cons d e cs rest hcs hrest =>
    rcases d with ⟨d, number⟩
    rw [routes_cons] at prose ⊢
    obtain ⟨own, beside⟩ := List.forall_mem_append.1 prose
    rw [Forest.map, Node.map, reading_cons, List.flatMap_append, hrest beside]
    congr 1
    cases cs with
    | nil => simp [routesBelow, Path.reading, Forest.map, reading, Forest.marks, preorder]
    | cons n cs =>
      have filled : ∀ p ∈ routes (n :: cs), p ≠ [] := by
        rintro p hp rfl
        exact nil_notMem_routes _ hp
      have own : ∀ p ∈ routes (n :: cs), Path.IsProse p ∧ ∃ target, d = .link target :=
        fun p hp => (own _ (List.mem_map_of_mem hp)).below (filled p hp)
      obtain ⟨first, hfirst⟩ := List.exists_mem_of_ne_nil _ (routesBelow_ne_nil (n :: cs))
      obtain ⟨target, rfl⟩ := (own first hfirst).2
      have bare : (Tag.link target).reading breakMark = [] := rfl
      rw [bare, hcs fun p hp => (own p hp).1, List.nil_append, routesBelow, List.flatMap_map]
      exact (List.flatMap_congr fun p hp => Path.reading_cons (filled p hp)).symm

theorem Tag.same_inline {t : Tag} (inline : t.category = .inline) (x : Tag) : x.same t = false := by
  cases t <;> simp [category] at inline <;> cases x <;> rfl

theorem Forest.settled_of_inline {g : Growth Tag}
    (inline : ∀ p ∈ routes g, ∀ s ∈ p, s.data.category = .inline) (backward : List Tag) :
    SettledAfter worldRules backward (Growth.forest g) := by
  unfold Growth.forest
  induction g using Forest.induction generalizing backward with
  | nil => trivial
  | cons d e cs rest hcs hrest =>
    rcases d with ⟨d, number⟩
    rw [routes_cons] at inline
    obtain ⟨own, beside⟩ := List.forall_mem_append.1 inline
    have own : ∀ p ∈ routesBelow cs, d.category = .inline ∧ ∀ s ∈ p, s.data.category = .inline :=
      fun p hp => List.forall_mem_cons.1 (own _ (List.mem_map_of_mem hp))
    obtain ⟨first, hfirst⟩ := List.exists_mem_of_ne_nil _ (routesBelow_ne_nil cs)
    refine ⟨Rules.finds_eq_false ?_, ?_, hrest beside _⟩
    · exact fun x _ _ _ => Tag.same_inline (own first hfirst).1 x
    · cases cs with
      | nil => trivial
      | cons n cs => exact hcs (fun p hp => (own p hp).2) []

end

def Node.isPlainText (n : Node Tag) : Bool := n.data.isText && n.isLeaf

/-- A text, a space or a line break without children, or a link that holds texts. -/
def Node.isProse (n : Node Tag) : Bool :=
  match n.data with
  | .text _ | .space | .lineBreak => n.isLeaf
  | .link _ => n.children.all Node.isPlainText
  | _ => false

/-- Texts, spaces, line breaks and links around texts, side by side. -/
def Forest.IsProse (t : Forest Tag) : Prop := ∀ n ∈ t, n.isProse = true

/-- How the longer side is put together from the shorter one and what it goes on with, as a reader
sees it; sides that are equal read the same. -/
def Comparison.Rebuilds (breakMark : Char) (base edit : Forest Tag) : Comparison → Prop
  | .equal => base.reading breakMark = edit.reading breakMark
  | .baseLonger r boundary =>
    Text.collapse (base.reading breakMark) =
      Text.collapse (boundary.extend (edit.reading breakMark) (r.reading breakMark))
  | .editLonger r boundary =>
    Text.collapse (edit.reading breakMark) =
      Text.collapse (boundary.extend (base.reading breakMark) (r.reading breakMark))
  | .conflict => True

theorem Path.isProse_singleton {s : Step Tag} (inline : s.data.category = .inline) :
    Path.IsProse [s] := ⟨by simpa using inline, by simp⟩

theorem Forest.pathsFrom_of_leaves {t : Forest Tag} (leaves : ∀ n ∈ t, n.isLeaf = true)
    {first : Nat} {p : Path Tag} (hp : p ∈ Forest.pathsFrom first t) :
    ∃ n ∈ t, ∃ o, p = [⟨n.data, n.extra, o⟩] := by
  induction t generalizing first with
  | nil => simp [pathsFrom] at hp
  | cons n rest ih =>
    obtain ⟨own, beside⟩ := List.forall_mem_cons.1 leaves
    rcases n with ⟨d, e, cs⟩
    obtain rfl : cs = [] := by simpa [Node.isLeaf] using own
    rw [pathsFrom, List.mem_append] at hp
    rcases hp with hp | hp
    · exact ⟨⟨d, e, []⟩, by simp, first, by simpa [Node.paths] using hp⟩
    · obtain ⟨m, hm, o, rfl⟩ := ih beside hp
      exact ⟨m, by simp [hm], o, rfl⟩

theorem Forest.IsProse.paths {t : Forest Tag} (prose : t.IsProse) {first : Nat} {p : Path Tag}
    (hp : p ∈ Forest.pathsFrom first t) : Path.IsProse p ∧ p.length ≤ 2 := by
  induction t generalizing first with
  | nil => simp [pathsFrom] at hp
  | cons n rest ih =>
    obtain ⟨own, beside⟩ := List.forall_mem_cons.1 prose
    rw [pathsFrom, List.mem_append] at hp
    rcases hp with hp | hp
    · rcases n with ⟨d, e, cs⟩
      have alone (inline : d.category = .inline) (leaf : cs = []) :
          Path.IsProse p ∧ p.length ≤ 2 := by
        subst leaf
        obtain rfl : p = [⟨d, e, first⟩] := by simpa [Node.paths] using hp
        exact ⟨Path.isProse_singleton inline, by simp⟩
      cases d with
      | text value => exact alone rfl (by simpa [Node.isProse, Node.isLeaf] using own)
      | space => exact alone rfl (by simpa [Node.isProse, Node.isLeaf] using own)
      | lineBreak => exact alone rfl (by simpa [Node.isProse, Node.isLeaf] using own)
      | link target =>
        have texts : ∀ m ∈ cs, m.data.isText = true ∧ m.isLeaf = true := by
          simpa [Node.isProse, Node.isPlainText] using own
        by_cases leaf : cs = []
        · exact alone rfl leaf
        · obtain ⟨q, hq, rfl⟩ : ∃ q ∈ pathsFrom (first + 1) cs, ⟨.link target, e, first⟩ :: q = p := by
            simpa [Node.paths, leaf] using hp
          obtain ⟨m, hm, o, rfl⟩ := pathsFrom_of_leaves (fun m hm => (texts m hm).2) hq
          obtain ⟨value, hvalue⟩ := Tag.eq_text_of_isText (texts m hm).1
          refine ⟨⟨?_, ?_⟩, by simp⟩
          · simp [hvalue, Tag.category]
          · simp
      | _ => simp [Node.isProse] at own
    · exact ih beside hp

/-- Paths of running content, no longer than through a link. -/
def Path.AreProse (paths : List (Path Tag)) : Prop :=
  ∀ p ∈ paths, Path.IsProse p ∧ p.length ≤ 2

theorem Path.IsProse.ended {p : Path Tag} (prose : Path.IsProse p) {s : Step Tag}
    (last : p.getLast? = some s) : s.data.isWrapper = false := by
  have inline := prose.inline s (List.mem_of_getLast? last)
  revert inline
  cases s.data <;> simp [Tag.category, Tag.isWrapper]

theorem Forest.IsProse.worldPaths {t : Forest Tag} (prose : t.IsProse) :
    Forest.worldPaths t = .ok (Forest.paths t) := by
  have faultless : Forest.fault? worldRules.isWrapper t = none := by
    refine Forest.fault?_of_ended 0 fun p hp => ?_
    obtain ⟨own, short⟩ := prose.paths hp
    exact ⟨fun s last => own.ended last, by simp only [maxDepth]; omega⟩
  rw [Forest.worldPaths, WorldOutline.ofForest, Outline.ofForest, faultless]

namespace Alignment

theorem exists_regrow {paths : List (Path Tag)} (prose : Path.AreProse paths) :
    ∃ r, regrow paths = .ok r := by
  have faultless : paths.findSome? (Path.fault? worldRules.isWrapper) = none := by
    refine List.findSome?_eq_none_iff.2 fun p hp => ?_
    obtain ⟨own, short⟩ := prose p hp
    have short : ¬maxDepth < p.length := by simp only [maxDepth]; omega
    rw [Path.fault?, if_neg short]
    split
    · rename_i s last
      have ended : worldRules.isWrapper s.data = false := own.ended last
      rw [ended]
      rfl
    · rfl
  rw [regrow, Outline.ofPaths, faultless]
  exact ⟨_, rfl⟩

theorem prose_of_remainders {boundary : Boundary} {base edit b e : List (Path Tag)}
    (prose : Path.AreProse base) (h : remainders? boundary base edit = some (b, e)) :
    Path.AreProse b := by
  rcases remainders?_eq_some h with ⟨-, rfl, -⟩ | ⟨front, front', m, meeting, rfl, -⟩
  · exact prose
  have inside : ∀ p ∈ m.pair.1 :: m.firstRest, p ∈ base := by
    intro p hp
    have : p ∈ toward boundary base := by
      rw [meeting.first]
      exact List.mem_append_right _ hp
    exact mem_toward.1 this
  intro p hp
  rcases mem_joined.1 hp with hp | hp
  · have fits := meeting.fits
    cases ho : m.overlap with
    | same => simp [ho, Overlap.paths] at hp
    | secondLonger x => simp [ho, Overlap.paths] at hp
    | firstLonger x =>
      rw [ho] at fits hp
      obtain ⟨-, -, value, other, hvalue, -, -⟩ := fits
      obtain ⟨q, e, o, pair⟩ := endText?_eq_some.1 hvalue
      obtain ⟨own, short⟩ := prose m.pair.1 (inside m.pair.1 (by simp))
      rw [Overlap.paths, pair, excessPaths, List.getLast?_concat, List.dropLast_concat] at hp
      obtain ⟨i, l, hl, rfl⟩ := mem_withLeaves hp
      rw [pair] at own short
      refine ⟨own.replaceLast ?_, by simpa using short⟩
      rcases eq_of_mem_excessLeaves (List.mem_of_getElem? hl) with space | ⟨value, text⟩
      · rw [space]
        rfl
      · rw [text]
        rfl
  · exact prose p (inside p (by simp [hp]))

theorem reading_regrow {boundary : Boundary} {base r : Forest Tag} {edit b e : List (Path Tag)}
    (prose : base.IsProse) (h : remainders? boundary (Forest.paths base) edit = some (b, e))
    (grown : regrow b = .ok r) (breakMark : Char) :
    r.reading breakMark = b.flatMap (Path.reading breakMark) := by
  have left : Path.AreProse b := prose_of_remainders (fun p hp => prose.paths hp) h
  obtain ⟨g, rfl, once⟩ := exists_remains_once h
  have settled := Forest.settled_of_inline (fun p hp => (left p hp).1.inline) []
  have whole : Growth.insertAll (Growth.regrowth []) (Forest.routes g) [] = [] ++ g :=
    Growth.insertAll_routes Step.settle_self rfl settled once
  rw [regrow_eq_ok grown, whole, List.nil_append]
  exact Forest.reading_routes fun p hp => (left p hp).1

end Alignment

open WorldMarkup.Alignment

theorem Forest.IsProse.reading_paths {t : Forest Tag} (prose : t.IsProse) (breakMark : Char) :
    t.reading breakMark = (Forest.paths t).flatMap (Path.reading breakMark) := by
  have routes : Forest.routes (Forest.numbered 0 t) = Forest.paths t := Forest.routes_numbered 0 t
  have own : ∀ p ∈ Forest.routes (Forest.numbered 0 t), Path.IsProse p := by
    intro p hp
    rw [routes] at hp
    exact (prose.paths hp).1
  have whole : Forest.reading breakMark (Growth.forest (Forest.numbered 0 t)) = _ :=
    Forest.reading_routes own
  rwa [Forest.forest_numbered, routes] at whole

theorem rebuilds_baseLonger (breakMark : Char) {base edit r : Forest Tag} {boundary : Boundary}
    (hbase : base.IsProse) (hedit : edit.IsProse)
    (h : compareEdits base edit = .ok (.baseLonger r boundary)) :
    Text.collapse (base.reading breakMark) =
      Text.collapse (boundary.extend (edit.reading breakMark) (r.reading breakMark)) := by
  obtain ⟨b, rem, grown⟩ := remainders_of_baseLonger h
  rw [hbase.reading_paths, hedit.reading_paths, reading_regrow hbase rem grown]
  exact collapse_of_remainders breakMark rem

theorem exists_compareEdits {base edit : Forest Tag} (hbase : base.IsProse)
    (hedit : edit.IsProse) : ∃ c, compareEdits base edit = .ok c := by
  have first : Path.AreProse (Forest.paths base) := fun p hp => hbase.paths hp
  have second : Path.AreProse (Forest.paths edit) := fun p hp => hedit.paths hp
  have found (boundary : Boundary) :
      compareAt? boundary (Forest.paths base) (Forest.paths edit) = none ∨
        ∃ c, compareAt? boundary (Forest.paths base) (Forest.paths edit) = some (.ok c) := by
    rw [compareAt?]
    cases rem : remainders? boundary (Forest.paths base) (Forest.paths edit) with
    | none => exact .inl rfl
    | some left =>
      obtain ⟨b, e⟩ := left
      have turned := remainders?_swap boundary (Forest.paths base) (Forest.paths edit)
      rw [rem] at turned
      obtain ⟨r, hr⟩ := exists_regrow (prose_of_remainders first rem)
      obtain ⟨r', hr'⟩ := exists_regrow (prose_of_remainders second turned)
      dsimp only
      cases b.isEmpty <;> cases e.isEmpty
      · exact .inl rfl
      · exact .inr ⟨.baseLonger r boundary, by rw [hr]; rfl⟩
      · exact .inr ⟨.editLonger r' boundary, by rw [hr']; rfl⟩
      · exact .inr ⟨.equal, rfl⟩
  rcases found .start with start | ⟨c, start⟩
  · rcases found .finish with finish | ⟨c, finish⟩
    · exact ⟨.conflict, compareEdits_eq_ok.2 ⟨_, _, hbase.worldPaths, hedit.worldPaths, by
        rw [start, finish]
        rfl⟩⟩
    · exact ⟨c, compareEdits_eq_ok.2 ⟨_, _, hbase.worldPaths, hedit.worldPaths, by
        rw [start, finish]
        rfl⟩⟩
  · exact ⟨c, compareEdits_eq_ok.2 ⟨_, _, hbase.worldPaths, hedit.worldPaths, by
      rw [start]
      rfl⟩⟩

/-- Running content can be compared, and what one side goes on with puts it together from the
other. -/
theorem compareEdits_rebuilds (breakMark : Char) {base edit : Forest Tag} (hbase : base.IsProse)
    (hedit : edit.IsProse) :
    ∃ c, compareEdits base edit = .ok c ∧ c.Rebuilds breakMark base edit := by
  obtain ⟨c, h⟩ := exists_compareEdits hbase hedit
  refine ⟨c, h, ?_⟩
  cases c with
  | equal =>
    obtain ⟨boundary, rem⟩ := remainders_of_equal h
    rw [Comparison.Rebuilds, hbase.reading_paths, hedit.reading_paths]
    exact reading_of_remainders rem
  | baseLonger r boundary => exact rebuilds_baseLonger breakMark hbase hedit h
  | editLonger r boundary =>
    exact rebuilds_baseLonger breakMark hedit hbase (compareEdits_ok_swap h)
  | conflict => trivial

def wayToDoor (told : String) : Forest Tag :=
  [.leaf (.text "Past the oak"), .leaf .space, .branch (.link "door") [.leaf (.text told)]]

theorem compareEdits_rebuilds_doorAjar :
    (wayToDoor "a door  ajar").IsProse ∧ (wayToDoor "a door").IsProse ∧
      compareEdits (wayToDoor "a door  ajar") (wayToDoor "a door") = .ok (.baseLonger
        [.branch (.link "door") [.leaf .space, .leaf (.text "ajar")]] .start) ∧
      ∃ c, compareEdits (wayToDoor "a door  ajar") (wayToDoor "a door") = .ok c ∧
        c.Rebuilds '/' (wayToDoor "a door  ajar") (wayToDoor "a door") := by
  have longer : (wayToDoor "a door  ajar").IsProse := by
    unfold Forest.IsProse
    decide
  have shorter : (wayToDoor "a door").IsProse := by
    unfold Forest.IsProse
    decide
  exact ⟨longer, shorter, by decide +kernel, compareEdits_rebuilds '/' longer shorter⟩

end WorldMarkup
