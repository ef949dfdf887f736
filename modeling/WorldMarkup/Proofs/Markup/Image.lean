import WorldMarkup.Proofs.Markup.Reading

/-!
What reading gives. While a document is read, every open element holds what is written and read
back where it stands, and no run of text follows another. Main statement: a document that is read
is written, and lies nowhere deeper than documents are printed.
-/

set_option autoImplicit false
set_option relaxedAutoImplicit false

namespace WorldMarkup

open Markup

/-! ### Forests that grow at the end -/

namespace Forest

variable {running : Bool} {cs ds : Forest Tag} {n : Node Tag}

theorem levels_append (cs ds : Forest Tag) :
    Forest.levels (cs ++ ds) = max (Forest.levels cs) (Forest.levels ds) := by
  induction cs with
  | nil => simp [Forest.levels]
  | cons n rest ih => simp [Forest.levels, ih, Nat.max_assoc]

theorem branchLevels_append (cs ds : Forest Tag) :
    Forest.branchLevels (cs ++ ds) = max (Forest.branchLevels cs) (Forest.branchLevels ds) := by
  induction cs with
  | nil => simp [Forest.branchLevels]
  | cons n rest ih =>
    obtain ⟨t, e, bs⟩ := n
    simp [Forest.branchLevels, ih, Nat.max_assoc]

def endsApart (cs : Forest Tag) : Bool := cs.getLast?.all (fun n => !n.data.isText)

theorem IsWritable.concat (h : Forest.IsWritable running cs) (hn : n.IsWritable running)
    (apart : n.data.isText = true → Forest.endsApart cs = true) :
    Forest.IsWritable running (cs ++ [n]) := by
  induction cs with
  | nil => exact ⟨hn, by simp, trivial⟩
  | cons m rest ih =>
    obtain ⟨own, next, others⟩ := h
    refine ⟨own, fun text => ?_, ih others fun textual => ?_⟩
    · cases rest with
      | nil =>
        cases textual : n.data.isText with
        | false => simp [textual]
        | true => simpa [endsApart, text] using apart textual
      | cons x rest => exact next text
    · cases rest with
      | nil => rfl
      | cons x rest => exact apart textual

theorem areWritableBranches_append :
    Forest.AreWritableBranches running (cs ++ ds) ↔
      Forest.AreWritableBranches running cs ∧ Forest.AreWritableBranches running ds := by
  induction cs with
  | nil => simp [Forest.AreWritableBranches]
  | cons n rest ih =>
    obtain ⟨t, e, bs⟩ := n
    simp [Forest.AreWritableBranches, ih, and_assoc]

end Forest

namespace Markup

/-! ### Events -/

namespace Event

def isText : Event → Bool
  | .text .. => true
  | _ => false

/-- No run of text follows another. -/
def AreApart : List Event → Prop
  | [] => True
  | x :: rest => (x.isText = true → rest.head?.all (fun y => !y.isText) = true) ∧ AreApart rest

theorem AreApart.consText {es : List Event} (h : AreApart es) (cs : List (Char × Bool))
    (offset : Nat) : AreApart (consText cs offset es) := by
  cases es with
  | nil => exact ⟨by simp, trivial⟩
  | cons x rest =>
    cases x with
    | text more _ => exact h
    | _ => exact ⟨fun _ => rfl, h⟩

theorem isText_openingEvent (offset : Nat) (ps : List Placed) :
    (openingEvent offset ps).1.isText = false := by
  unfold openingEvent
  split
  · split <;> rfl
  · rfl

theorem isText_closingEvent (offset : Nat) (ps : List Placed) :
    (closingEvent offset ps).1.isText = false := by
  unfold closingEvent
  split <;> rfl

theorem areApart_ofTokens (ps : List Placed) : AreApart (ofTokens ps) := by
  fun_induction ofTokens ps with
  | case1 => trivial
  | case2 token start _ rest cs _ ih => exact ih.consText cs start
  | case3 start _ rest _ _ ih =>
    exact ⟨fun text => absurd text (by simp [isText_openingEvent]), ih⟩
  | case4 start _ rest _ _ ih =>
    exact ⟨fun text => absurd text (by simp [isText_closingEvent]), ih⟩
  | case5 => exact ⟨by simp [isText], trivial⟩

end Event

/-! ### What an open element holds -/

namespace Frame

variable {f g : Frame} {n : Node Tag} {t : Tag} {level offset : Nat}

/-- What an element holds, up to here, is written and read back where it stands, and is nowhere
too deep for an element that stands within this many others. -/
inductive Holds (f : Frame) (level : Nat) : Prop
  | content (plain : f.isConditional = false) (writable : Forest.IsWritable f.running f.children)
    (shallow : level + Forest.levels f.children ≤ maxDepth + 1)
  | branches (conditional : f.isConditional = true)
    (writable : Forest.AreWritableBranches f.running f.children)
    (shallow : level + Forest.branchLevels f.children ≤ maxDepth + 1)

def endsApart (f : Frame) : Bool :=
  if f.isConditional then f.children.getLast?.all (fun b => Forest.endsApart b.children)
  else Forest.endsApart f.children

theorem accepts_of_push (h : f.push n offset = .ok g) : f.Accepts ∧ g = f.add n := by
  have accepts : f.Accepts := by
    rintro conditional empty
    simp [push, conditional, empty, intoLast] at h
  rw [push_eq accepts] at h
  exact ⟨accepts, (Except.ok.inj h).symm⟩

theorem add_conditional (conditional : f.isConditional = true) (accepts : f.Accepts)
    (n : Node Tag) : ∃ bs t e cs, f.children = bs ++ [⟨t, e, cs⟩] ∧
      f.add n = { f with fresh := false, children := bs ++ [⟨t, e, cs ++ [n]⟩] } := by
  obtain ⟨bs, b, hb⟩ := (List.eq_nil_or_concat f.children).resolve_left (accepts conditional)
  rw [List.concat_eq_append] at hb
  obtain ⟨t, e, cs⟩ := b
  exact ⟨bs, t, e, cs, hb, by simp [add, conditional, hb, intoLast_concat]⟩

theorem add_plain (plain : f.isConditional = false) (n : Node Tag) :
    f.add n = { f with fresh := false, children := f.children ++ [n] } := by
  simp [add, plain]

theorem Holds.add (h : f.Holds level) (accepts : f.Accepts) (writable : n.IsWritable f.running)
    (shallow : level + n.levels ≤ maxDepth + 1)
    (apart : n.data.isText = true → f.endsApart = true) : (f.add n).Holds level := by
  cases h with
  | content plain within deep =>
    rw [add_plain plain]
    simp only [endsApart, plain, Bool.false_eq_true, if_false] at apart
    refine .content plain (within.concat writable apart) ?_
    simp only [Forest.levels_append, Forest.levels]
    omega
  | branches conditional within deep =>
    obtain ⟨bs, t, e, cs, children, added⟩ := add_conditional conditional accepts n
    rw [children, Forest.areWritableBranches_append] at within
    obtain ⟨before, plain, extra, last, -⟩ := within
    simp only [endsApart, conditional, if_true, children, List.getLast?_concat, Option.all_some]
      at apart
    rw [children, Forest.branchLevels_append, Forest.branchLevels] at deep
    rw [added]
    refine .branches conditional (Forest.areWritableBranches_append.2
      ⟨before, plain, extra, last.concat writable apart, trivial⟩) ?_
    simp only [Forest.branchLevels_append, Forest.branchLevels, Forest.levels_append,
      Forest.levels] at deep ⊢
    omega

theorem endsApart_add (accepts : f.Accepts) (text : n.data.isText = false) :
    (f.add n).endsApart = true := by
  have still : (f.add n).isConditional = f.isConditional := rfl
  cases conditional : f.isConditional with
  | false =>
    rw [endsApart, still, if_neg (by simp [conditional]), add_plain conditional]
    simp [Forest.endsApart, text]
  | true =>
    obtain ⟨bs, t, e, cs, -, added⟩ := add_conditional conditional accepts n
    rw [endsApart, still, if_pos conditional, added]
    simp [Forest.endsApart, text]

theorem isPlainBranch_of_branchOf {name : String} {a : Attributes}
    (h : branchOf name a = .ok t) : t.isPlainBranch = true := by
  unfold branchOf at h
  split at h
  · split at h
    · obtain rfl := Except.ok.inj h
      rfl
    · simp at h
  · obtain rfl := Except.ok.inj h
    rfl

theorem Holds.begin (h : f.Holds level) (conditional : f.isConditional = true)
    (branch : t.isPlainBranch = true) : (f.begin t).Holds level := by
  cases h with
  | content plain => simp [conditional] at plain
  | branches _ within deep =>
    refine .branches conditional (Forest.areWritableBranches_append.2
      ⟨within, branch, rfl, trivial, trivial⟩) ?_
    simpa [Frame.begin, Forest.branchLevels_append, Forest.branchLevels, Node.leaf, Forest.levels]
      using deep

theorem endsApart_begin (conditional : f.isConditional = true) (t : Tag) :
    (f.begin t).endsApart = true := by
  have still : (f.begin t).isConditional = true := conditional
  rw [endsApart, if_pos still]
  simp [Frame.begin, Node.leaf, Forest.endsApart]

theorem holds_ofTag (a : Attributes) (within : Bool) (shallow : level ≤ maxDepth + 1) :
    (Frame.ofTag t a within).Holds level ∧ (Frame.ofTag t a within).endsApart = true ∧
      Node.levels ⟨t, (Frame.ofTag t a within).extra, (Frame.ofTag t a within).children⟩ = 1 := by
  rw [ofTag_eq]
  by_cases conditional : t = .conditional
  · subst conditional
    cases a.bare with
    | none => exact ⟨.branches rfl trivial shallow, rfl, rfl⟩
    | some c => exact ⟨.branches rfl ⟨rfl, rfl, trivial, trivial⟩ shallow, rfl, rfl⟩
  · rw [if_neg conditional, Node.levels_plain conditional]
    refine ⟨.content (by simpa [isConditional] using conditional) trivial shallow, ?_, rfl⟩
    simp [endsApart, isConditional, conditional, Forest.endsApart]

theorem Holds.node (h : f.Holds (level + 1)) (tag : f.tag = some t) (element : t.isElement = true)
    (unannotated : t.isUnannotated = true) (unmarked : f.extra.inherited = false) {within : Bool}
    (runs : f.running = t.runsWithin within) :
    Node.IsWritable within ⟨t, f.extra, f.children⟩ := by
  cases h with
  | content plain writable =>
    rw [runs] at writable
    have notConditional : t ≠ .conditional := by simpa [isConditional, tag] using plain
    obtain ⟨text, branch⟩ := Tag.still_of_isElement element
    exact Node.isWritable_of_plain notConditional text branch ⟨unannotated, unmarked, writable⟩
  | branches conditional writable =>
    obtain rfl : t = .conditional := by simpa [isConditional, tag] using conditional
    exact ⟨unmarked, by rwa [runs] at writable⟩

theorem Holds.levels_node (h : f.Holds (level + 1)) (tag : f.tag = some t)
    (shallow : level < maxDepth) :
    level + Node.levels ⟨t, f.extra, f.children⟩ ≤ maxDepth + 1 := by
  cases h with
  | content plain _ deep =>
    rw [Node.levels_plain (by simpa [isConditional, tag] using plain)]
    omega
  | branches conditional _ deep =>
    obtain rfl : t = .conditional := by simpa [isConditional, tag] using conditional
    rw [Node.levels]
    split <;> omega

/-- Elements that stand open within one another, the innermost first and the document last. -/
inductive IsStack : Frame → List Frame → Prop
  | document {f : Frame} (tag : f.tag = none) (running : f.running = false) (holds : f.Holds 0) :
    IsStack f []
  | element {f parent : Frame} {below : List Frame} {t : Tag} (tag : f.tag = some t)
    (element : t.isElement = true) (unannotated : t.isUnannotated = true)
    (unmarked : f.extra.inherited = false) (runs : f.running = t.runsWithin parent.running)
    (shallow : below.length < maxDepth) (holds : f.Holds (below.length + 1))
    (around : IsStack parent below) : IsStack f (parent :: below)

variable {below : List Frame}

theorem IsStack.holds (h : IsStack f below) : f.Holds below.length := by
  cases h with
  | document _ _ holds => exact holds
  | element _ _ _ _ _ _ holds => exact holds

theorem IsStack.length_le (h : IsStack f below) : below.length ≤ maxDepth := by
  cases h with
  | document => exact Nat.zero_le _
  | element _ _ _ _ _ shallow => exact shallow

theorem IsStack.update (h : IsStack f below) (tag : g.tag = f.tag) (extra : g.extra = f.extra)
    (running : g.running = f.running) (holds : g.Holds below.length) : IsStack g below := by
  cases h with
  | document root still => exact .document (tag.trans root) (running.trans still) holds
  | element named element unannotated unmarked runs shallow _ around =>
    exact .element (tag.trans named) element unannotated (by rwa [extra]) (running.trans runs)
      shallow holds around

theorem IsStack.push (h : IsStack f below) (pushed : f.push n offset = .ok g)
    (writable : n.IsWritable f.running) (shallow : below.length + n.levels ≤ maxDepth + 1)
    (apart : n.data.isText = true → f.endsApart = true) :
    IsStack g below ∧ (n.data.isText = false → g.endsApart = true) := by
  obtain ⟨accepts, rfl⟩ := accepts_of_push pushed
  exact ⟨h.update rfl rfl rfl (h.holds.add accepts writable shallow apart),
    endsApart_add accepts⟩

end Frame

/-! ### One event -/

section Step

variable {top : Frame} {below : List Frame} {es : List Event} {t : Forest Tag} {offset : Nat}

/-- Reading goes on within open elements, and a text that comes next follows no other text. -/
def GoesOn (es : List Event) (t : Forest Tag) : Prop :=
  ∃ (top : Frame) (below : List Frame), top.IsStack below ∧
    (es.head?.any Event.isText = true → top.endsApart = true) ∧ assemble top below es = .ok t

theorem goesOn_text {chars : List (Char × Bool)} (stack : top.IsStack below)
    (ready : top.endsApart = true) (after : es.head?.any Event.isText = false)
    (h : assemble top below (.text chars offset :: es) = .ok t) : GoesOn es t := by
  have still : es.head?.any Event.isText = true → top.endsApart = true := by simp [after]
  rw [assemble] at h
  simp only at h
  split at h
  · rename_i running
    split at h
    · exact ⟨top, below, stack, still, h⟩
    · rename_i filled
      obtain ⟨added, pushed, h⟩ := Except.bind_eq_ok.1 h
      have shallow : below.length + 1 ≤ maxDepth + 1 := Nat.succ_le_succ stack.length_le
      obtain ⟨stack, -⟩ := stack.push pushed ⟨running, rfl, rfl, by simpa using filled⟩ shallow
        (fun _ => ready)
      exact ⟨added, below, stack, by simp [after], h⟩
  · split at h
    · exact ⟨top, below, stack, still, h⟩
    · simp at h

/-- An opening tag begins a branch, stands for a whole element, or opens one. -/
theorem goesOn_opening {name : String} {a : Attributes} {selfClosing : Bool}
    (stack : top.IsStack below)
    (h : assemble top below (.opening name a selfClosing offset :: es) = .ok t) : GoesOn es t := by
  rw [assemble] at h
  split at h
  · split at h
    · rename_i begins
      obtain ⟨conditional, -⟩ : top.isConditional = true ∧ selfClosing = true := by
        simpa using begins
      obtain ⟨branch, plain, h⟩ := Except.bind_eq_ok.1 h
      have holds := stack.holds.begin conditional (Frame.isPlainBranch_of_branchOf plain)
      exact ⟨top.begin branch, below, stack.update rfl rfl rfl holds,
        fun _ => Frame.endsApart_begin conditional branch, h⟩
    · simp at h
  · obtain ⟨tag, given, h⟩ := Except.bind_eq_ok.1 h
    obtain ⟨element, unannotated⟩ := Tag.isElement_of_tagOf given
    simp only at h
    have shallow : below.length + 1 ≤ maxDepth + 1 := Nat.succ_le_succ stack.length_le
    obtain ⟨holds, free, level⟩ := Frame.holds_ofTag (t := tag) a top.running shallow
    have frame := ofTag_eq tag a top.running
    split at h
    · obtain ⟨added, pushed, h⟩ := Except.bind_eq_ok.1 h
      have writable := holds.node (by rw [frame]) element unannotated (by rw [frame])
        (by rw [frame])
      have notText := (Tag.still_of_isElement element).1
      obtain ⟨stack, apart⟩ := stack.push pushed writable (by rwa [level])
        (fun text => absurd text (by simp [notText]))
      exact ⟨added, below, stack, fun _ => apart notText, h⟩
    · split at h
      · simp at h
      · rename_i shallow
        exact ⟨_, _, .element (by rw [frame]) element unannotated (by rw [frame]) (by rw [frame])
          (Nat.not_le.1 shallow) holds stack, fun _ => free, h⟩

theorem goesOn_closing {name : String} (stack : top.IsStack below)
    (h : assemble top below (.closing name offset :: es) = .ok t) : GoesOn es t := by
  rw [assemble.eq_def] at h
  cases stack with
  | document tag => simp [tag] at h
  | element tag element unannotated unmarked runs shallow holds around =>
    simp only [tag] at h
    split at h
    · obtain ⟨added, pushed, h⟩ := Except.bind_eq_ok.1 h
      have notText := (Tag.still_of_isElement element).1
      obtain ⟨stack, apart⟩ := around.push pushed
        (holds.node tag element unannotated unmarked runs) (holds.levels_node tag shallow)
        (fun text => absurd text (by simp [notText]))
      exact ⟨added, _, stack, fun _ => apart notText, h⟩
    · simp at h

theorem goesOn_cons {x : Event} (stack : top.IsStack below)
    (next : x.isText = true → es.head?.all (fun y => !y.isText) = true)
    (ready : x.isText = true → top.endsApart = true)
    (h : assemble top below (x :: es) = .ok t) : GoesOn es t := by
  cases x with
  | fault e => simp [assemble] at h
  | text chars offset =>
    have after : es.head?.any Event.isText = false := by
      have := next rfl
      cases es <;> simp_all
    exact goesOn_text stack (ready rfl) after h
  | opening name a selfClosing offset => exact goesOn_opening stack h
  | closing name offset => exact goesOn_closing stack h

end Step

/-! ### Whole documents -/

theorem isWritable_of_assemble {es : List Event} {top : Frame} {below : List Frame}
    {t : Forest Tag} (stack : top.IsStack below) (apart : Event.AreApart es)
    (ready : es.head?.any Event.isText = true → top.endsApart = true)
    (h : assemble top below es = .ok t) :
    Forest.IsWritable false t ∧ Forest.levels t ≤ maxDepth + 1 := by
  induction es generalizing top below with
  | nil =>
    cases stack with
    | document tag running holds =>
      obtain rfl : top.children = t := by simpa [assemble, tag] using h
      cases holds with
      | content _ writable shallow => exact ⟨by rwa [running] at writable, by simpa using shallow⟩
      | branches conditional => simp [Frame.isConditional, tag] at conditional
    | element tag => simp [assemble, tag] at h
  | cons x es ih =>
    obtain ⟨next, apart⟩ := apart
    obtain ⟨top, below, stack, ready, h⟩ := goesOn_cons stack next (by simpa using ready) h
    exact ih stack apart ready h

/-- A document that is read is written, and lies nowhere deeper than documents are printed. -/
theorem isWritable_of_parse {source : String} {t : Forest Tag} (h : parse source = .ok t) :
    Forest.IsWritable false t ∧ Forest.levels t ≤ maxDepth + 1 := by
  obtain ⟨ps, -, h⟩ := Except.bind_eq_ok.1 h
  have document : Frame.IsStack {} [] := .document rfl rfl (.content rfl trivial (Nat.zero_le _))
  exact isWritable_of_assemble document (Event.areApart_ofTokens ps) (fun _ => rfl) h

end Markup

end WorldMarkup
