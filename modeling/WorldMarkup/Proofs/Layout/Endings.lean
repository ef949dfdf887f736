import WorldMarkup.Proofs.Layout.Widths
import WorldMarkup.Proofs.Tree.Wrappers

/-!
How printing ends. Main statement: whatever is laid out has a first layout on one line and further
ones more and more spread out, so that a layout can always be chosen; printing fails only where a
forest is too deep, or where a conditional holds something else than branches.
-/

set_option autoImplicit false
set_option relaxedAutoImplicit false

namespace WorldMarkup

/-- A run ends as it should: with a good result, or with a fault that may be. -/
inductive Ends {ε β : Type} (Good : β → Prop) (Fault : ε → Prop) : Except ε β → Prop
  | ok {a : β} (good : Good a) : Ends Good Fault (.ok a)
  | error {fault : ε} (may : Fault fault) : Ends Good Fault (.error fault)

namespace Ends

variable {ε β γ : Type} {Good : β → Prop} {Good' : γ → Prop} {Fault Fault' : ε → Prop}
  {x : Except ε β}

theorem bind {f : β → Except ε γ} (first : Ends Good Fault x)
    (next : ∀ a, Good a → Ends Good' Fault (f a)) : Ends Good' Fault (x >>= f) := by
  cases first with
  | ok good => exact next _ good
  | error may => exact .error may

theorem map {f : β → γ} (h : Ends Good Fault x) (good : ∀ a, Good a → Good' (f a)) :
    Ends Good' Fault (x.map f) := by
  cases h with
  | ok h => exact .ok (good _ h)
  | error may => exact .error may

theorem imp (h : Ends Good Fault x) (faults : ∀ fault, Fault fault → Fault' fault) :
    Ends Good Fault' x := by
  cases h with
  | ok good => exact .ok good
  | error may => exact .error (faults _ may)

theorem good_of_eq {a : β} (h : Ends Good Fault x) (done : x = .ok a) : Good a := by
  subst done
  cases h with
  | ok good => exact good

theorem fault_of_eq {fault : ε} (h : Ends Good Fault x) (failed : x = .error fault) :
    Fault fault := by
  subst failed
  cases h with
  | error may => exact may

theorem exists_ok (h : Ends Good Fault x) (faultless : ∀ fault, ¬ Fault fault) :
    ∃ a, x = .ok a ∧ Good a := by
  cases h with
  | ok good => exact ⟨_, rfl, good⟩
  | error may => exact absurd may (faultless _)

end Ends

namespace Layout

open Markup

variable {page : Page} {depth : Nat} {cs : List Candidate} {fault : PrintError}

/-! ### Graded layouts -/

/-- Where a mode comes, from the least to the most spread out. -/
def Mode.rank : Mode → Nat
  | .naive => 0
  | .nested => 1
  | .propertyNested => 2

/-- The first layout is on one line, and every further one is more spread out. -/
structure IsGraded (cs : List Candidate) : Prop where
  first : cs.head?.map Candidate.mode = some .naive
  rising : cs.Pairwise (fun c d => c.mode.rank < d.mode.rank)

/-- A part that can be laid out. -/
inductive Part.IsGraded : Part → Prop
  | child {cs : List Candidate} (graded : Layout.IsGraded cs) : IsGraded (.child cs)
  | divider (text : List Char) : IsGraded (.divider text)

namespace IsGraded

theorem single (out : List Char) : IsGraded [⟨.naive, out⟩] := ⟨rfl, by simp⟩

theorem exists_naive (h : IsGraded cs) : ∃ c rest, cs = c :: rest ∧ c.mode = .naive := by
  cases cs with
  | nil => simpa using h.first
  | cons c rest => exact ⟨c, rest, rfl, by simpa using h.first⟩

theorem ne_nil (h : IsGraded cs) : cs ≠ [] := by
  obtain ⟨c, rest, rfl, -⟩ := h.exists_naive
  simp

theorem keepNaive (h : IsGraded cs) (t : Tag) :
    ∃ kept, Layout.keepNaive t cs = .ok kept ∧ IsGraded kept := by
  obtain ⟨c, rest, rfl, naive⟩ := h.exists_naive
  exact ⟨[c], by simp [Layout.keepNaive, naive], by simpa using naive, by simp⟩

end IsGraded

namespace Part.IsGraded

variable {p : Part}

theorem isOffered (h : p.IsGraded) : p.isWithoutCandidates = false := by
  cases h with
  | child graded => simpa [isWithoutCandidates] using graded.ne_nil
  | divider text => rfl

theorem naive? (h : p.IsGraded) : ∃ out, p.naive? = pure out := by
  cases h with
  | child graded =>
    obtain ⟨c, rest, rfl, naive⟩ := graded.exists_naive
    exact ⟨c.output, by simp [Part.naive?, naive]⟩
  | divider text => exact ⟨text, rfl⟩

theorem nested? (h : p.IsGraded) (page : Page) (depth : Nat) :
    ∃ out, p.nested? page depth = pure out := by
  cases h with
  | @child cs graded =>
    have ne : cs.filter (fun c => c.mode ≠ .propertyNested) ≠ [] := by
      obtain ⟨c, rest, rfl, naive⟩ := graded.exists_naive
      simp [naive]
    obtain ⟨c, i, chosen, -⟩ := choose?_of_ne_nil (page.budget (depth + 1)) ne
    exact ⟨indentBlock c.output page.margin, by simp only [Part.nested?, chosen]; rfl⟩
  | divider text => exact ⟨text, rfl⟩

theorem spread (h : p.IsGraded) (page : Page) (depth : Nat) :
    ∃ out, p.spread page depth = pure out := by
  cases h with
  | child graded =>
    obtain ⟨c, collapsed, -⟩ := collapse_of_ne_nil page (depth + 1) graded.ne_nil
    exact ⟨indentBlock c.output page.margin, by simp only [Part.spread, collapsed]; rfl⟩
  | divider text => exact ⟨text, rfl⟩

end Part.IsGraded

theorem exists_mapM {β γ : Type} {m : Type → Type} [Monad m] [LawfulMonad m] {f : β → m γ}
    {xs : List β} (each : ∀ x ∈ xs, ∃ y, f x = pure y) : ∃ ys, xs.mapM f = pure ys := by
  induction xs with
  | nil => exact ⟨[], by simp⟩
  | cons x xs ih =>
    rw [List.forall_mem_cons] at each
    obtain ⟨⟨y, first⟩, others⟩ := each
    obtain ⟨ys, rest⟩ := ih others
    exact ⟨y :: ys, by simp [List.mapM_cons, first, rest]⟩

theorem isGraded_renderEmpty (page : Page) (e : Element) : IsGraded (renderEmpty page e) := by
  unfold renderEmpty
  refine ⟨rfl, ?_⟩
  split <;> simp [Mode.rank]

theorem isGraded_runningCandidates (page : Page) (depth : Nat) (e : Element)
    (pieces : List Piece) : IsGraded (runningCandidates page depth e pieces) := by
  unfold runningCandidates
  refine ⟨rfl, ?_⟩
  split <;> simp [Mode.rank]

theorem render_of_graded (page : Page) (depth : Nat) (e : Element) {parts : List Part}
    (graded : ∀ p ∈ parts, p.IsGraded) :
    ∃ cs, render page depth e parts = .ok cs ∧ IsGraded cs := by
  cases parts with
  | nil => exact ⟨_, rfl, isGraded_renderEmpty page e⟩
  | cons p others =>
    obtain ⟨line, hline⟩ := exists_mapM fun p hp => (graded p hp).naive?
    obtain ⟨block, hblock⟩ := exists_mapM fun p hp => (graded p hp).nested? page depth
    obtain ⟨wide, hwide⟩ := exists_mapM fun p hp => (graded p hp).spread page depth
    obtain ⟨c, naive, hc⟩ : ∃ c, naiveCandidate e (p :: others) = some c ∧ c.mode = .naive := by
      rw [naiveCandidate, hline]
      exact ⟨_, rfl, rfl⟩
    obtain ⟨d, nested, hd⟩ : ∃ d, nestedCandidate page depth e (p :: others) = some d ∧
        d.mode = .nested := by
      rw [nestedCandidate, hblock]
      exact ⟨_, rfl, rfl⟩
    obtain ⟨last, spread, hlast⟩ : ∃ last, spreadCandidate page depth e (p :: others) = .ok last ∧
        ∀ b ∈ last, b.mode = .propertyNested := by
      rw [spreadCandidate, hwide]
      split
      · exact ⟨none, rfl, by simp⟩
      · exact ⟨some _, rfl, by simp⟩
    have offered : (p :: others).any Part.isWithoutCandidates = false :=
      List.any_eq_false.2 fun p hp => by simp [(graded p hp).isOffered]
    refine ⟨c :: d :: last.toList, render_eq_ok.2 ?_, by simp [hc], ?_⟩
    · rw [if_neg (by simp), naive, nested]
      exact ⟨offered, by simp, last, spread, rfl⟩
    · cases last with
      | none => simp [Mode.rank, hc, hd]
      | some b => simp [Mode.rank, hc, hd, hlast b rfl]

/-! ### Faults -/

/-- What may be wrong with a forest that is to be printed: that many levels are open within one
another at its deepest place, or one of these trees is a conditional with a child that is no
branch. -/
inductive IsFault (levels : Nat) (trees : List (Node Tag)) : PrintError → Prop
  | deep (h : maxDepth + 1 < levels) : IsFault levels trees (.tooDeep maxDepth)
  | stranger {n b : Node Tag} (tree : n ∈ trees) (conditional : n.data = .conditional)
    (child : b ∈ n.children) (h : b.data.category ≠ .branch) :
    IsFault levels trees (.document (.strangerUnderConditional b.data.label))

theorem IsFault.mono {levels levels' : Nat} {trees trees' : List (Node Tag)}
    (h : IsFault levels trees fault) (deeper : levels ≤ levels') (more : trees ⊆ trees') :
    IsFault levels' trees' fault := by
  cases h with
  | deep h => exact .deep (Nat.lt_of_lt_of_le h deeper)
  | stranger tree conditional child h => exact .stranger (more tree) conditional child h

theorem ends_within {β : Type} {Good : β → Prop} {x : Except PrintError β} {levels levels' : Nat}
    {trees trees' : List (Node Tag)} (h : Ends Good (IsFault levels trees) x)
    (deeper : levels ≤ levels') (more : trees ⊆ trees') : Ends Good (IsFault levels' trees') x :=
  h.imp fun _ may => may.mono deeper more

theorem ends_dividers (first : Bool) {levels : Nat} {trees : List (Node Tag)} {n b : Node Tag}
    (tree : n ∈ trees) (conditional : n.data = .conditional) (child : b ∈ n.children) :
    Ends (fun parts => ∀ p ∈ parts, p.IsGraded) (IsFault levels trees)
      (dividers first b.data) := by
  obtain ⟨t, e, cs⟩ := b
  have one (text : List Char) : ∀ p ∈ [Part.divider text], p.IsGraded := by
    simpa using Part.IsGraded.divider text
  cases t
  case statement s =>
    cases first with
    | true => exact .ok (by simp)
    | false => exact .ok (one _)
  case «fallthrough» => cases first <;> exact .ok (one _)
  all_goals
    have fault : IsFault levels trees _ :=
      .stranger tree conditional child (by simp [Tag.category])
    cases first <;> exact .error fault

/-- How laying out ends for everything below a forest: for its nodes as children of an element, as
branches of a conditional, and as running text. -/
structure LaysOut (page : Page) (cs : Forest Tag) : Prop where
  children (position : Position) (depth : Nat) :
    Ends (fun parts => ∀ p ∈ parts, p.IsGraded)
      (IsFault (depth + Forest.levels cs) (Forest.trees cs)) (childParts page position depth cs)
  branches (position : Position) (depth : Nat) (first : Bool) {n : Node Tag}
    (conditional : n.data = .conditional) (within : cs ⊆ n.children) :
    Ends (fun parts => ∀ p ∈ parts, p.IsGraded)
      (IsFault (depth + Forest.branchLevels cs) (n :: Forest.trees cs))
      (branchParts page position depth first cs)
  pieces (depth : Nat) :
    Ends (fun _ => True) (IsFault (depth + Forest.levels cs) (Forest.trees cs))
      (runningPieces page depth cs)

theorem layouts_deep {position : Position} (h : maxDepth < depth) (n : Node Tag) :
    layouts page position depth n = .error (.tooDeep maxDepth) := by
  obtain ⟨t, e, cs⟩ := n
  unfold layouts
  exact if_pos h

/-- Laying out a node ends as it should when it does for everything below it. -/
theorem LaysOut.node {t : Tag} {e : Extra} {cs : Forest Tag} (below : LaysOut page cs)
    (position : Position) (depth : Nat) :
    Ends IsGraded
      (IsFault (depth + Node.levels ⟨t, e, cs⟩) (⟨t, e, cs⟩ :: Forest.trees cs))
      (layouts page position depth ⟨t, e, cs⟩) := by
  by_cases shallow : depth ≤ maxDepth
  case neg =>
    have := Node.one_le_levels ⟨t, e, cs⟩
    rw [layouts_deep (Nat.not_le.1 shallow)]
    exact .error (.deep (by omega))
  by_cases text : t.isText = true
  · obtain ⟨value, rfl⟩ := Tag.eq_text_of_isText text
    rw [layouts_text shallow]
    exact .ok (.single _)
  by_cases runs : position = .block ∧ t.isRunning = true
  · obtain ⟨rfl, isRunning⟩ := runs
    have notConditional : t ≠ .conditional := by
      rintro rfl
      simp [Tag.isRunning] at isRunning
    rw [layouts_running isRunning shallow, Node.levels_plain notConditional]
    split
    · exact .ok (isGraded_renderEmpty page _)
    · exact (ends_within (below.pieces (depth + 1)) (by omega) (List.subset_cons_self ..)).map
        fun pieces _ => isGraded_runningCandidates page depth _ pieces
  · have parts : Ends (fun parts => ∀ p ∈ parts, p.IsGraded)
        (IsFault (depth + Node.levels ⟨t, e, cs⟩) (⟨t, e, cs⟩ :: Forest.trees cs))
        (contentParts page position (depth + 1) ⟨t, e, cs⟩) := by
      unfold contentParts
      split
      · rename_i conditional
        subst conditional
        have lower := Forest.branchLevels_lt e cs
        exact ends_within (below.branches position (depth + 1) true rfl (List.Subset.refl _))
          (by omega) (List.Subset.refl _)
      · rename_i notConditional
        rw [Node.levels_plain notConditional]
        exact ends_within (below.children position (depth + 1)) (by omega)
          (List.subset_cons_self ..)
    rw [layouts_plain (by simpa using text) (fun h => by simpa [h] using runs) shallow]
    refine parts.bind fun parts graded => ?_
    obtain ⟨candidates, rendered, graded⟩ :=
      render_of_graded page depth (Node.element ⟨t, e, cs⟩) graded
    rw [rendered]
    cases position with
    | block => exact .ok graded
    | running =>
      obtain ⟨kept, hkept, graded⟩ := graded.keepNaive t
      show Ends _ _ (keepNaive t candidates)
      rw [hkept]
      exact .ok graded

section

variable {t : Tag} {e : Extra} {cs rest : Forest Tag}

theorem LaysOut.first (below : LaysOut page cs) (position : Position) (depth : Nat) :
    Ends IsGraded (IsFault (depth + Forest.levels (⟨t, e, cs⟩ :: rest))
      (Forest.trees (⟨t, e, cs⟩ :: rest))) (layouts page position depth ⟨t, e, cs⟩) := by
  rw [Forest.levels, Forest.trees_cons]
  exact ends_within (below.node position depth) (by omega) (by simp)

theorem LaysOut.cons_children (below : LaysOut page cs) (beside : LaysOut page rest)
    (position : Position) (depth : Nat) :
    Ends (fun parts => ∀ p ∈ parts, p.IsGraded)
      (IsFault (depth + Forest.levels (⟨t, e, cs⟩ :: rest)) (Forest.trees (⟨t, e, cs⟩ :: rest)))
      (childParts page position depth (⟨t, e, cs⟩ :: rest)) := by
  rw [childParts]
  refine (below.first position depth).bind fun candidates graded => ?_
  rw [Forest.levels, Forest.trees_cons]
  refine (ends_within (beside.children position depth) (by omega) (by simp)).bind
    fun parts others => ?_
  exact .ok (List.forall_mem_cons.2 ⟨.child graded, others⟩)

theorem LaysOut.cons_branches (below : LaysOut page cs) (beside : LaysOut page rest)
    (position : Position) (depth : Nat) (first : Bool) {n : Node Tag}
    (conditional : n.data = .conditional) (within : ⟨t, e, cs⟩ :: rest ⊆ n.children) :
    Ends (fun parts => ∀ p ∈ parts, p.IsGraded)
      (IsFault (depth + Forest.branchLevels (⟨t, e, cs⟩ :: rest))
        (n :: Forest.trees (⟨t, e, cs⟩ :: rest)))
      (branchParts page position depth first (⟨t, e, cs⟩ :: rest)) := by
  obtain ⟨child, within⟩ := List.cons_subset.1 within
  rw [branchParts, Forest.branchLevels, Forest.trees_cons]
  refine (ends_dividers first (List.mem_cons_self ..) conditional child).bind fun divider one => ?_
  have content : Forest.trees cs ⊆ n :: ⟨t, e, cs⟩ :: (Forest.trees cs ++ Forest.trees rest) :=
    fun m hm => by simp [hm]
  refine (ends_within (below.children position depth) (by omega) content).bind
    fun content children => ?_
  have later : n :: Forest.trees rest ⊆
      n :: ⟨t, e, cs⟩ :: (Forest.trees cs ++ Forest.trees rest) :=
    List.cons_subset_cons n (fun m hm => by simp [hm])
  refine (ends_within (beside.branches position depth false conditional within) (by omega)
    later).bind fun parts others => ?_
  exact .ok (List.forall_mem_append.2 ⟨List.forall_mem_append.2 ⟨one, children⟩, others⟩)

theorem LaysOut.cons_pieces (below : LaysOut page cs) (beside : LaysOut page rest) (depth : Nat) :
    Ends (fun _ => True)
      (IsFault (depth + Forest.levels (⟨t, e, cs⟩ :: rest)) (Forest.trees (⟨t, e, cs⟩ :: rest)))
      (runningPieces page depth (⟨t, e, cs⟩ :: rest)) := by
  have others : Ends (fun _ => True) (IsFault (depth + Forest.levels (⟨t, e, cs⟩ :: rest))
      (Forest.trees (⟨t, e, cs⟩ :: rest))) (runningPieces page depth rest) := by
    rw [Forest.levels, Forest.trees_cons]
    exact ends_within (beside.pieces depth) (by omega) (by simp)
  cases text : t.isText with
  | true =>
    obtain ⟨value, rfl⟩ := Tag.eq_text_of_isText text
    rw [runningPieces]
    exact others.bind fun _ _ => .ok trivial
  | false =>
    rw [runningPieces_node text]
    exact (below.first .running depth).bind fun _ _ => others.bind fun _ _ => .ok trivial

end

/-- Laying out ends as it should below every forest. -/
theorem laysOut (page : Page) (cs : Forest Tag) : LaysOut page cs := by
  induction cs using Forest.induction with
  | nil => exact ⟨fun _ _ => .ok (by simp), fun _ _ _ _ _ _ => .ok (by simp), fun _ => .ok trivial⟩
  | cons t e cs rest hcs hrest =>
    exact ⟨hcs.cons_children hrest, fun position depth first _ conditional within =>
      hcs.cons_branches hrest position depth first conditional within, hcs.cons_pieces hrest⟩

theorem ends_layouts (page : Page) (position : Position) (depth : Nat) (n : Node Tag) :
    Ends IsGraded (IsFault (depth + Node.levels n) (Forest.trees [n]))
      (layouts page position depth n) := by
  obtain ⟨t, e, cs⟩ := n
  have h := (laysOut page cs).node (t := t) (e := e) position depth
  rwa [Forest.trees_cons, Forest.trees_nil, List.append_nil]

/-! ### Whole documents -/

theorem ends_printRoot (page : Page) (n : Node Tag) :
    Ends (fun _ => True) (IsFault n.levels (Forest.trees [n])) (printRoot page n) := by
  have laid := ends_layouts page .block 0 n
  rw [Nat.zero_add] at laid
  refine laid.bind fun candidates graded => ?_
  obtain ⟨c, collapsed, -⟩ := collapse_of_ne_nil page 0 graded.ne_nil
  rw [collapsed]
  exact .ok trivial

theorem ends_printList (page : Page) (t : Forest Tag) :
    Ends (fun _ => True) (IsFault (Forest.levels t) (Forest.trees t)) (printList page t) := by
  induction t with
  | nil => exact .ok trivial
  | cons n rest ih =>
    have split : Forest.trees (n :: rest) = Forest.trees [n] ++ Forest.trees rest :=
      Forest.trees_append [n] rest
    rw [printList, Forest.levels, split]
    refine (ends_within (ends_printRoot page n) (by omega) (by simp)).bind fun _ _ => ?_
    exact (ends_within ih (by omega) (by simp)).bind fun _ _ => .ok trivial

theorem ends_print (page : Page) (t : Forest Tag) :
    Ends (fun _ => True) (IsFault (Forest.levels t) (Forest.trees t)) (print page t) :=
  (ends_printList page t).map fun _ _ => trivial

theorem exists_print (page : Page) {t : Forest Tag} (shallow : Forest.levels t ≤ maxDepth + 1)
    (branches : ∀ n ∈ Forest.trees t, n.data = .conditional →
      ∀ b ∈ n.children, b.data.category = .branch) :
    ∃ text, print page t = .ok text := by
  obtain ⟨text, printed, -⟩ := (ends_print page t).exists_ok fun fault h => by
    cases h with
    | deep h => omega
    | stranger tree conditional child h => exact h (branches _ tree conditional _ child)
  exact ⟨text, printed⟩

/-- Every list of layouts starts with one on one line and goes on with more and more spread out
ones, so that printing never lacks a layout. It fails only for a forest with too many levels, or
for a child of a conditional that is no branch. -/
theorem layouts_graded_and_print_faults (page : Page) (t : Forest Tag) :
    (∀ position depth n cs, layouts page position depth n = .ok cs → IsGraded cs) ∧
    (∀ place, print page t ≠ .error (.noCandidates place)) ∧
    ∀ fault, print page t = .error fault →
      (fault = .tooDeep maxDepth ∧ maxDepth + 1 < Forest.levels t) ∨
      ∃ n ∈ Forest.trees t, n.data = .conditional ∧ ∃ b ∈ n.children,
        b.data.category ≠ .branch ∧
          fault = .document (.strangerUnderConditional b.data.label) := by
  refine ⟨fun position depth n cs laid => (ends_layouts page position depth n).good_of_eq laid,
    fun place failed => ?_, fun fault failed => ?_⟩
  · cases (ends_print page t).fault_of_eq failed
  · cases (ends_print page t).fault_of_eq failed with
    | deep h => exact .inl ⟨rfl, h⟩
    | stranger tree conditional child h => exact .inr ⟨_, tree, conditional, _, child, h, rfl⟩

end Layout

end WorldMarkup
