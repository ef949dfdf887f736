import WorldMarkup.Layout.Print
import WorldMarkup.Proofs.Markup.Attributes

/-!
Documents from items. A forest is told by items when they are its tags in order, its texts, and
between them blanks that the reader takes back. Main statement: items that tell a forest read back
as that forest, wherever they stand.
-/

set_option autoImplicit false
set_option relaxedAutoImplicit false

namespace WorldMarkup

open Markup
open Layout (conditionalElement)

namespace Tag

/-- Whether the content of the element is running text, where the element itself stands in running
text or does not. -/
def runsWithin (within : Bool) : Tag → Bool
  | .conditional | .remove | .replace | .replaceMatch | .replacePayload => within
  | t => t.isRunning

/-- A branch with nothing noted of the names its condition reads. -/
def isPlainBranch : Tag → Bool
  | .statement s => s.dependencies.isEmpty
  | .fallthrough => true
  | _ => false

theorem eq_text_of_isText {t : Tag} (h : t.isText = true) : ∃ value, t = .text value := by
  cases t with
  | text value => exact ⟨value, rfl⟩
  | _ => simp [isText, text?] at h

theorem ne_text_of_isText {t : Tag} (h : t.isText = false) (value : String) : t ≠ .text value := by
  rintro rfl
  simp [isText, text?] at h

theorem still_of_isElement {t : Tag} (h : t.isElement = true) :
    t.isText = false ∧ t.category ≠ .branch := by
  cases t <;> simp [isElement] at h <;> simp [isText, text?, category]

end Tag

namespace Markup

/-- What a run of text comes to in an element that holds running text or does not. -/
def readRun (running fresh atEnd : Bool) (run : List (Char × Bool)) : Option (List Char) :=
  if running then some (settleBlanks fresh atEnd run)
  else if run.all isSoftBlank then some [] else none

def branchItem : Tag → Item
  | .statement s => .opening "ElseIf" (.ofProperties [.condition s.condition]) true
  | _ => .opening "Else" (.ofProperties []) true

/-- What stands in front of a branch. A first statement has nothing, as its condition stands in
the opening tag of the conditional. -/
def LeadsIn (running first : Bool) (t : Tag) (lead : List Item) : Prop :=
  match first, t with
  | true, .statement _ => lead = []
  | true, t => ∃ run, lead = Item.ofRun run ++ [branchItem t] ∧
    readRun running true true run = some []
  | false, t => lead = [branchItem t]

/-- Branches that the opening tag of a conditional gives by itself. -/
def isBareChain : Forest Tag → Bool
  | [] | [⟨.statement _, _, []⟩] => true
  | _ => false

end Markup

mutual

/-- The items of a node in an element that holds running text or does not. -/
def Node.Told (running : Bool) : Node Tag → List Item → Prop
  | ⟨.conditional, e, cs⟩, is =>
    (is = [.opening "If" (.ofProperties (conditionalElement e cs).properties) true] ∧
        isBareChain cs = true) ∨
      ∃ body, is = .opening "If" (.ofProperties (conditionalElement e cs).properties) false ::
        (body ++ [.closing "If"]) ∧ isBareChain cs = false ∧
        Forest.ToldAsBranches running true cs body
  | ⟨t, e, cs⟩, is =>
    (is = [.opening t.label (t.attributes e) true] ∧ cs = []) ∨
      ∃ body, is = .opening t.label (t.attributes e) false :: (body ++ [.closing t.label]) ∧
        cs ≠ [] ∧ Forest.Told (t.runsWithin running) true true cs body

/-- The items of content, up to where it ends. `fresh` tells whether nothing of the content has
been read before; `apart` whether a tag stands before. -/
def Forest.Told (running fresh apart : Bool) : Forest Tag → List Item → Prop
  | [], is => ∃ run, is = Item.ofRun run ∧ (apart = false → run = []) ∧
    readRun running fresh true run = some []
  | ⟨.text value, _, _⟩ :: rest, is => ∃ run js, is = Item.ofRun run ++ js ∧ apart = true ∧
    readRun running fresh rest.isEmpty run = some value.toList ∧
    Forest.Told running false false rest js
  | n :: rest, is => ∃ run ns js, is = Item.ofRun run ++ (ns ++ js) ∧
    (apart = false → run = []) ∧ readRun running fresh false run = some [] ∧
    Node.Told running n ns ∧ Forest.Told running false true rest js

/-- The items of the branches of a conditional. -/
def Forest.ToldAsBranches (running first : Bool) : Forest Tag → List Item → Prop
  | [], is => is = []
  | ⟨t, _, cs⟩ :: rest, is => ∃ lead body js, is = lead ++ (body ++ js) ∧
    LeadsIn running first t lead ∧ Forest.Told running true true cs body ∧
    Forest.ToldAsBranches running false rest js

end

mutual

/-- Whether a node is written and read back in an element that holds running text or does not:
texts stand only in running text, conditionals hold branches and branches stand nowhere else. -/
def Node.IsWritable (running : Bool) : Node Tag → Prop
  | ⟨.text value, e, cs⟩ => running = true ∧ e = {} ∧ cs = [] ∧ value ≠ ""
  | ⟨.statement _, _, _⟩ | ⟨.fallthrough, _, _⟩ => False
  | ⟨.conditional, e, cs⟩ => e.inherited = false ∧ Forest.AreWritableBranches running cs
  | ⟨t, e, cs⟩ => t.isUnannotated = true ∧ e.inherited = false ∧
    Forest.IsWritable (t.runsWithin running) cs

/-- Likewise for a forest, in which no text stands next to another. -/
def Forest.IsWritable (running : Bool) : Forest Tag → Prop
  | [] => True
  | n :: rest => n.IsWritable running ∧
    (n.data.isText = true → rest.head?.all (fun m => !m.data.isText) = true) ∧
    Forest.IsWritable running rest

/-- Likewise for the branches of a conditional. -/
def Forest.AreWritableBranches (running : Bool) : Forest Tag → Prop
  | [] => True
  | ⟨t, e, cs⟩ :: rest => t.isPlainBranch = true ∧ e = {} ∧ Forest.IsWritable running cs ∧
    Forest.AreWritableBranches running rest

end

mutual

/-- How many elements stand within one another at the deepest place of a tree, itself counted. A
branch is no element, but a conditional that does not close itself is open around its branches. -/
def Node.levels : Node Tag → Nat
  | ⟨.conditional, _, cs⟩ =>
    1 + (if isBareChain cs then 0 else max 1 (Forest.branchLevels cs))
  | ⟨_, _, cs⟩ => 1 + Forest.levels cs

def Forest.levels : Forest Tag → Nat
  | [] => 0
  | n :: rest => max n.levels (Forest.levels rest)

def Forest.branchLevels : Forest Tag → Nat
  | [] => 0
  | ⟨_, _, cs⟩ :: rest => max (Forest.levels cs) (Forest.branchLevels rest)

end

theorem Node.levels_plain {t : Tag} (h : t ≠ .conditional) (e : Extra) (cs : Forest Tag) :
    Node.levels ⟨t, e, cs⟩ = 1 + Forest.levels cs := by
  cases t with
  | conditional => exact absurd rfl h
  | _ => rfl

theorem Node.one_le_levels (n : Node Tag) : 1 ≤ n.levels := by
  obtain ⟨t, e, cs⟩ := n
  by_cases h : t = .conditional
  · subst h
    exact Nat.le_add_right 1 _
  · rw [levels_plain h]
    exact Nat.le_add_right 1 _

theorem Forest.one_le_levels {cs : Forest Tag} (h : cs ≠ []) : 1 ≤ Forest.levels cs := by
  cases cs with
  | nil => exact absurd rfl h
  | cons n rest => exact Nat.le_trans n.one_le_levels (Nat.le_max_left _ _)

theorem Forest.branchLevels_lt (e : Extra) (cs : Forest Tag) :
    Forest.branchLevels cs < Node.levels ⟨.conditional, e, cs⟩ := by
  rw [Node.levels]
  split
  · rename_i bare
    have nothing : Forest.branchLevels cs = 0 := by
      rcases cs with _ | ⟨⟨t, x, _ | ⟨b, bs⟩⟩, _ | ⟨c, rest⟩⟩
      · rfl
      · rfl
      all_goals cases t <;> simp [isBareChain] at bare
    omega
  · omega

theorem Forest.levels_le_depth (cs : Forest Tag) :
    Forest.levels cs ≤ Forest.depth cs ∧ Forest.branchLevels cs ≤ Forest.depth cs := by
  induction cs using Forest.induction with
  | nil => exact ⟨Nat.le_refl 0, Nat.le_refl 0⟩
  | cons t e cs rest hcs hrest =>
    have node : Node.levels ⟨t, e, cs⟩ ≤ Node.depth ⟨t, e, cs⟩ := by
      rw [Node.depth]
      by_cases h : t = .conditional
      · subst h
        rw [Node.levels]
        split
        · omega
        · rename_i notBare
          have below : 1 ≤ Forest.depth cs := by
            cases cs with
            | nil => simp [isBareChain] at notBare
            | cons n cs =>
              obtain ⟨d, x, ds⟩ := n
              simp only [Forest.depth, Node.depth]
              omega
          omega
      · rw [Node.levels_plain h]
        omega
    simp only [Forest.levels, Forest.branchLevels, Forest.depth]
    rw [Node.depth] at node ⊢
    omega

namespace Markup

/-! ### Frames -/

namespace Frame

/-- Add a node to what the element holds, where it may hold one. -/
def add (f : Frame) (n : Node Tag) : Frame :=
  { f with
    fresh := false
    children := if f.isConditional then (intoLast n f.children).getD f.children
      else f.children ++ [n] }

def Accepts (f : Frame) : Prop := f.isConditional = true → f.children ≠ []

theorem intoLast_concat (n b : Node Tag) (bs : Forest Tag) :
    intoLast n (bs ++ [b]) = some (bs ++ [{ b with children := b.children ++ [n] }]) := by
  induction bs with
  | nil => rfl
  | cons c bs ih =>
    cases bs with
    | nil => rfl
    | cons d bs =>
      rw [List.cons_append, List.cons_append, intoLast, ← List.cons_append, ih]
      · rfl
      · simp

variable {f : Frame}

theorem push_eq (accepts : f.Accepts) (n : Node Tag) (offset : Nat) :
    f.push n offset = .ok (f.add n) := by
  by_cases h : f.isConditional = true
  · obtain ⟨bs, b, hb⟩ := (List.eq_nil_or_concat f.children).resolve_left (accepts h)
    rw [List.concat_eq_append] at hb
    simp [push, add, h, hb, intoLast_concat]
  · simp [push, add, h]

theorem Accepts.add (accepts : f.Accepts) (n : Node Tag) : (f.add n).Accepts := by
  intro h
  have hf : f.isConditional = true := h
  obtain ⟨bs, b, hb⟩ := (List.eq_nil_or_concat f.children).resolve_left (accepts hf)
  rw [List.concat_eq_append] at hb
  simp [Frame.add, hf, hb, intoLast_concat]

theorem foldl_add_conditional (h : f.isConditional = true) {bs : Forest Tag} {b : Node Tag}
    (hb : f.children = bs ++ [b]) (cs : Forest Tag) :
    ∃ fresh, cs.foldl add f =
      { f with fresh, children := bs ++ [{ b with children := b.children ++ cs }] } := by
  induction cs generalizing f b with
  | nil =>
    cases b
    exact ⟨f.fresh, by simp [← hb]⟩
  | cons n cs ih =>
    have next : f.add n =
        { f with
          fresh := false
          children := bs ++ [{ b with children := b.children ++ [n] }] } := by
      simp [add, h, hb, intoLast_concat]
    obtain ⟨fresh, hf⟩ := ih (f := f.add n) h (b := { b with children := b.children ++ [n] })
      (by rw [next])
    refine ⟨fresh, ?_⟩
    rw [List.foldl_cons, hf, next]
    simp

theorem foldl_add_plain (h : f.isConditional = false) (cs : Forest Tag) :
    ∃ fresh, cs.foldl add f = { f with fresh, children := f.children ++ cs } := by
  induction cs generalizing f with
  | nil => exact ⟨f.fresh, by simp⟩
  | cons n cs ih =>
    obtain ⟨fresh, hf⟩ := ih (f := f.add n) h
    refine ⟨fresh, ?_⟩
    rw [List.foldl_cons, hf]
    simp [add, h]

def addText (f : Frame) (value : List Char) : Frame :=
  if value.isEmpty then f else f.add (.leaf (.text (String.ofList value)))

end Frame

/-! ### Runs of text -/

/-- Whether content ends before these items, in a conditional or in another element. -/
def Item.endContent (conditional : Bool) : List Item → Bool
  | [] | .closing _ :: _ => true
  | .opening name _ _ :: _ => conditional && isBranchName name
  | .char .. :: _ => false

theorem Tells.endsContent {es : List Event} {is : List Item} (h : Tells es is) (f : Frame) :
    endsContent f es = Item.endContent f.isConditional is := by
  cases h with
  | nil => rfl
  | @text run _ es is ne whole rest =>
    obtain ⟨x, run, rfl⟩ := List.exists_cons_of_ne_nil ne
    rfl
  | opening rest => rfl
  | closing rest => rfl

theorem Tells.ofRun {es : List Event} {run : List (Char × Bool)} {is : List Item} (ne : run ≠ [])
    (whole : is.head?.all Item.isTag = true) (h : Tells es (Item.ofRun run ++ is)) :
    ∃ offset es', es = .text run offset :: es' ∧ Tells es' is := by
  obtain ⟨x, run, rfl⟩ := List.exists_cons_of_ne_nil ne
  generalize hi : Item.ofRun (x :: run) ++ is = items at h
  cases h with
  | nil => simp [Item.ofRun] at hi
  | opening rest => simp [Item.ofRun] at hi
  | closing rest => simp [Item.ofRun] at hi
  | @text run' offset es' is' ne' whole' rest =>
    have cut : ∀ (r : List (Char × Bool)) (js : List Item), js.head?.all Item.isTag = true →
        (Item.ofRun r ++ js).takeWhile (fun i => !i.isTag) = Item.ofRun r := fun r js hj =>
      takeWhile_append_of_head? _ (by simp [Item.ofRun, Item.isTag, Function.comp_def])
        (by simpa using hj)
    have runs : Item.ofRun (x :: run) = Item.ofRun run' :=
      (cut _ _ whole).symm.trans (hi ▸ cut _ _ whole')
    have same : x :: run = run' :=
      (List.map_inj_right (by rintro ⟨a, b⟩ ⟨c, d⟩ h; cases h; rfl)).mp runs
    subst same
    rw [List.append_right_inj] at hi
    exact ⟨offset, es', rfl, hi ▸ rest⟩

/-- A run of text adds what it comes to. -/
theorem assemble_run {es : List Event} {run : List (Char × Bool)} {is : List Item}
    (h : Tells es (Item.ofRun run ++ is)) (whole : is.head?.all Item.isTag = true) :
    ∃ es', Tells es' is ∧ ∀ (top : Frame) (below : List Frame) (value : List Char),
      readRun top.running top.fresh (Item.endContent top.isConditional is) run = some value →
      (value ≠ [] → top.Accepts) → assemble top below es = assemble (top.addText value) below es' := by
  by_cases ne : run = []
  · subst ne
    refine ⟨es, h, fun top below value hv accepts => ?_⟩
    obtain rfl : value = [] := by
      simp only [readRun, List.all_nil, if_true] at hv
      split at hv
      · rw [settleBlanks] at hv
        simpa using hv.symm
      · simpa using hv.symm
    rfl
  · obtain ⟨offset, es', rfl, told⟩ := h.ofRun ne whole
    refine ⟨es', told, fun top below value hv accepts => ?_⟩
    rw [← told.endsContent top] at hv
    rw [assemble]
    unfold readRun at hv
    by_cases running : top.running = true
    · simp only [running, if_true, Option.some.injEq] at hv ⊢
      simp only [hv, Frame.addText]
      split
      · rfl
      · rename_i ne
        rw [Frame.push_eq (accepts (by simpa using ne))]
        rfl
    · simp only [running, Bool.false_eq_true, if_false] at hv ⊢
      split at hv
      · rename_i soft
        obtain rfl : value = [] := by simpa using hv.symm
        simp [soft, Frame.addText]
      · simp at hv

/-! ### Elements -/

theorem isBranchName_label {t : Tag} (h : t.isElement = true) : isBranchName t.label = false := by
  cases t with
  | entity e =>
    show isBranchName e.kind.label = false
    rcases e.kind with _ | _ | _ | ⟨_ | _ | _ | _ | _ | _ | _ | _ | _ | _⟩ <;> decide
  | field f => cases f <;> decide
  | text _ => simp [Tag.isElement] at h
  | statement _ => simp [Tag.isElement] at h
  | fallthrough => simp [Tag.isElement] at h
  | _ => simp [isBranchName, Tag.label]

theorem bare_foldl_note (ps : List Property) (a : Attributes)
    (h : ∀ s, .condition s ∉ ps) : (ps.foldl Attributes.note a).bare = a.bare := by
  induction ps generalizing a with
  | nil => rfl
  | cons p ps ih =>
    rw [List.foldl_cons, ih _ (fun s hs => h s (by simp [hs]))]
    cases p with
    | condition s => exact absurd (by simp) (h s)
    | named n v => rfl

theorem bare_idProperty (e : Extra) (a : Attributes) :
    (e.properties.foldl Attributes.note a).bare = a.bare := by
  refine bare_foldl_note _ _ fun s hs => ?_
  cases h : e.id <;> simp [Extra.properties, Property.optional, h] at hs

/-- The condition in the opening tag of a conditional with these branches. -/
def firstCondition? : Forest Tag → Option String
  | ⟨.statement s, _, _⟩ :: _ => some s.condition
  | _ => none

theorem attributes_conditionalElement (e : Extra) (cs : Forest Tag) :
    Attributes.ofProperties (conditionalElement e cs).properties =
      e.properties.foldl Attributes.note { bare := firstCondition? cs } := by
  rcases cs with _ | ⟨⟨t, x, bs⟩, rest⟩
  · rfl
  · cases t <;> rfl

theorem bare_conditionalElement (e : Extra) (cs : Forest Tag) :
    (Attributes.ofProperties (conditionalElement e cs).properties).bare = firstCondition? cs := by
  rw [attributes_conditionalElement, bare_idProperty]

theorem get?_id_conditionalElement (e : Extra) (cs : Forest Tag) :
    (Attributes.ofProperties (conditionalElement e cs).properties).get? "id" = e.id := by
  rw [attributes_conditionalElement, Attributes.get?_foldl_note, Tag.findSome?_idProperty,
    if_pos rfl]
  rfl

theorem ofTag_eq (t : Tag) (a : Attributes) (within : Bool) :
    Frame.ofTag t a within =
      { tag := some t
        extra := { id := a.get? "id" }
        running := t.runsWithin within
        children := if t = .conditional then (a.bare.map (fun c => .leaf (.onCondition c))).toList
          else [] } := by
  obtain ⟨named, bare⟩ := a
  cases t with
  | conditional => cases bare <;> rfl
  | _ => rfl

theorem ofTag_conditional {e : Extra} (plain : e.inherited = false) (cs : Forest Tag)
    (within : Bool) :
    Frame.ofTag .conditional (.ofProperties (conditionalElement e cs).properties) within =
      { tag := some .conditional
        extra := e
        running := within
        children := ((firstCondition? cs).map (fun c => Node.leaf (.onCondition c))).toList } := by
  rw [ofTag_eq, get?_id_conditionalElement, bare_conditionalElement, if_pos rfl,
    show ({ id := e.id } : Extra) = e by rw [← plain]]
  rfl

theorem ofTag_plain {t : Tag} {e : Extra} (plain : e.inherited = false) (h : t ≠ .conditional)
    (within : Bool) :
    Frame.ofTag t (t.attributes e) within =
      { tag := some t, extra := e, running := t.runsWithin within } := by
  rw [ofTag_eq, Tag.get?_id_attributes, if_neg h, show ({ id := e.id } : Extra) = e by rw [← plain]]

theorem Tells.of_nil {es : List Event} (h : Tells es []) : es = [] := by
  generalize hi : ([] : List Item) = items at h
  cases h with
  | nil => rfl
  | text ne whole rest =>
    obtain ⟨x, run, rfl⟩ := List.exists_cons_of_ne_nil ne
    simp [Item.ofRun] at hi
  | opening rest => simp at hi
  | closing rest => simp at hi

theorem Tells.of_opening {es : List Event} {name : String} {a : Attributes} {closes : Bool}
    {is : List Item} (h : Tells es (.opening name a closes :: is)) :
    ∃ offset es', es = .opening name a closes offset :: es' ∧ Tells es' is := by
  generalize hi : Item.opening name a closes :: is = items at h
  cases h with
  | nil => simp at hi
  | text ne whole rest =>
    obtain ⟨x, run, rfl⟩ := List.exists_cons_of_ne_nil ne
    simp [Item.ofRun] at hi
  | opening rest =>
    simp only [List.cons.injEq, Item.opening.injEq] at hi
    obtain ⟨⟨rfl, rfl, rfl⟩, rfl⟩ := hi
    exact ⟨_, _, rfl, rest⟩
  | closing rest => simp at hi

theorem Tells.of_closing {es : List Event} {name : String} {is : List Item}
    (h : Tells es (.closing name :: is)) :
    ∃ offset es', es = .closing name offset :: es' ∧ Tells es' is := by
  generalize hi : Item.closing name :: is = items at h
  cases h with
  | nil => simp at hi
  | text ne whole rest =>
    obtain ⟨x, run, rfl⟩ := List.exists_cons_of_ne_nil ne
    simp [Item.ofRun] at hi
  | opening rest => simp at hi
  | closing rest =>
    simp only [List.cons.injEq, Item.closing.injEq] at hi
    obtain ⟨rfl, rfl⟩ := hi
    exact ⟨_, _, rfl, rest⟩

theorem assemble_selfClosing {t : Tag} {a : Attributes} (element : t.isElement = true)
    (tag : ∀ offset, tagOf t.label a offset = .ok t) {top : Frame} (accepts : top.Accepts)
    (below : List Frame) (offset : Nat) (es : List Event) :
    assemble top below (.opening t.label a true offset :: es) =
      assemble (top.add ⟨t, (Frame.ofTag t a top.running).extra,
        (Frame.ofTag t a top.running).children⟩) below es := by
  rw [assemble]
  simp only [isBranchName_label element, tag, Frame.push_eq accepts]
  rfl

theorem assemble_opening {t : Tag} {a : Attributes} (element : t.isElement = true)
    (tag : ∀ offset, tagOf t.label a offset = .ok t) (top : Frame) (below : List Frame)
    (shallow : below.length < maxDepth) (offset : Nat) (es : List Event) :
    assemble top below (.opening t.label a false offset :: es) =
      assemble (Frame.ofTag t a top.running) (top :: below) es := by
  rw [assemble]
  simp only [isBranchName_label element, tag]
  simp [Nat.not_le.mpr shallow, bind, Except.bind]

theorem assemble_closing {t : Tag} {f parent : Frame} (tag : f.tag = some t)
    (accepts : parent.Accepts) (below : List Frame) (offset : Nat) (es : List Event) :
    assemble f (parent :: below) (.closing t.label offset :: es) =
      assemble (parent.add ⟨t, f.extra, f.children⟩) below es := by
  rw [assemble.eq_def]
  simp [tag, Frame.push_eq accepts, bind, Except.bind]

theorem assemble_branch {t : Tag} (plain : t.isPlainBranch = true) {top : Frame}
    (h : top.isConditional = true) {es : List Event} {is : List Item}
    (told : Tells es (branchItem t :: is)) :
    ∃ es', Tells es' is ∧ ∀ below,
      assemble top below es = assemble (top.begin t) below es' := by
  cases t with
  | statement s =>
    obtain ⟨condition, dependencies⟩ := s
    obtain rfl : dependencies = [] := by simpa [Tag.isPlainBranch] using plain
    obtain ⟨offset, es', rfl, rest⟩ := Tells.of_opening told
    refine ⟨es', rest, fun below => ?_⟩
    rw [assemble]
    simp [isBranchName, h, branchOf, Attributes.ofProperties, Attributes.note, Tag.onCondition,
      bind, Except.bind]
  | fallthrough =>
    obtain ⟨offset, es', rfl, rest⟩ := Tells.of_opening told
    refine ⟨es', rest, fun below => ?_⟩
    rw [assemble]
    simp [isBranchName, h, branchOf, bind, Except.bind]
  | _ => simp [Tag.isPlainBranch] at plain

end Markup

/-! ### Forests -/

theorem Node.told_plain {t : Tag} (h : t ≠ .conditional) (running : Bool) (e : Extra)
    (cs : Forest Tag) (is : List Item) :
    Node.Told running ⟨t, e, cs⟩ is ↔
      (is = [.opening t.label (t.attributes e) true] ∧ cs = []) ∨
        ∃ body, is = .opening t.label (t.attributes e) false :: (body ++ [.closing t.label]) ∧
          cs ≠ [] ∧ Forest.Told (t.runsWithin running) true true cs body := by
  cases t with
  | conditional => exact absurd rfl h
  | _ => rfl

theorem Node.isWritable_plain {t : Tag} (h : t ≠ .conditional) (text : t.isText = false)
    {running : Bool} {e : Extra} {cs : Forest Tag} (writable : Node.IsWritable running ⟨t, e, cs⟩) :
    t.isElement = true ∧ t.isUnannotated = true ∧ e.inherited = false ∧
      Forest.IsWritable (t.runsWithin running) cs := by
  cases t with
  | conditional => exact absurd rfl h
  | text value => simp [Tag.isText, Tag.text?] at text
  | statement s => exact writable.elim
  | fallthrough => exact writable.elim
  | _ => exact ⟨rfl, writable⟩

theorem Node.isWritable_of_plain {t : Tag} (h : t ≠ .conditional) (text : t.isText = false)
    (branch : t.category ≠ .branch) {running : Bool} {e : Extra} {cs : Forest Tag}
    (inside : t.isUnannotated = true ∧ e.inherited = false ∧
      Forest.IsWritable (t.runsWithin running) cs) : Node.IsWritable running ⟨t, e, cs⟩ := by
  cases t with
  | conditional => exact absurd rfl h
  | text value => simp [Tag.isText, Tag.text?] at text
  | statement s => simp [Tag.category] at branch
  | fallthrough => simp [Tag.category] at branch
  | _ => exact inside

theorem Forest.told_cons {t : Tag} (text : t.isText = false) (running fresh apart : Bool)
    (e : Extra) (cs rest : Forest Tag) (is : List Item) :
    Forest.Told running fresh apart (⟨t, e, cs⟩ :: rest) is ↔
      ∃ run ns js, is = Item.ofRun run ++ (ns ++ js) ∧ (apart = false → run = []) ∧
        readRun running fresh false run = some [] ∧ Node.Told running ⟨t, e, cs⟩ ns ∧
        Forest.Told running false true rest js := by
  cases t with
  | text value => simp [Tag.isText, Tag.text?] at text
  | _ => rfl

namespace Markup

/-- Whether items that tell the forest as content read back as it. -/
def ReadsAsContent (cs : Forest Tag) : Prop :=
  ∀ (top : Frame) (below : List Frame) (apart : Bool) (body is : List Item) (es : List Event),
    top.Accepts → Forest.IsWritable top.running cs →
    Forest.Told top.running top.fresh apart cs body →
    Item.endContent top.isConditional is = true →
    below.length + Forest.levels cs ≤ maxDepth + 1 → Tells es (body ++ is) →
    ∃ es', Tells es' is ∧ assemble top below es = assemble (cs.foldl Frame.add top) below es'

def openedBranch (cs : Forest Tag) : Forest Tag :=
  ((firstCondition? cs).map (fun c => Node.leaf (.onCondition c))).toList

/-- Whether items that tell the forest as branches, after those of `done`, read back as it. -/
def ReadsAsBranches (cs : Forest Tag) : Prop :=
  ∀ (top : Frame) (below : List Frame) (first : Bool) (done : Forest Tag) (body is : List Item)
    (es : List Event), top.isConditional = true →
    (if first then done = [] ∧ top.fresh = true ∧ top.children = openedBranch cs
      else top.children = done) →
    Forest.AreWritableBranches top.running cs → Forest.ToldAsBranches top.running first cs body →
    Item.endContent true is = true → below.length + Forest.branchLevels cs ≤ maxDepth + 1 →
    Tells es (body ++ is) →
    ∃ fresh es', Tells es' is ∧
      assemble top below es = assemble { top with fresh, children := done ++ cs } below es'

theorem Item.isTag_of_endContent {conditional : Bool} {is : List Item}
    (h : Item.endContent conditional is = true) : is.head?.all Item.isTag = true := by
  cases is with
  | nil => rfl
  | cons i is =>
    cases i with
    | char c escaped => simp [Item.endContent] at h
    | _ => rfl

theorem reads_plain {t : Tag} {e : Extra} {cs : Forest Tag} (content : ReadsAsContent cs)
    (h : t ≠ .conditional) (text : t.isText = false) {top : Frame} {below : List Frame}
    {ns is : List Item} {es : List Event} (accepts : top.Accepts)
    (writable : Node.IsWritable top.running ⟨t, e, cs⟩)
    (told : Node.Told top.running ⟨t, e, cs⟩ ns)
    (shallow : below.length + Node.levels ⟨t, e, cs⟩ ≤ maxDepth + 1)
    (tells : Tells es (ns ++ is)) :
    ∃ es', Tells es' is ∧ assemble top below es = assemble (top.add ⟨t, e, cs⟩) below es' := by
  obtain ⟨element, unannotated, plain, inside⟩ := Node.isWritable_plain h text writable
  have tag := Tag.tagOf_attributes e element unannotated
  have frame := ofTag_plain plain h top.running
  rw [Node.levels_plain h] at shallow
  rcases (Node.told_plain h _ _ _ _).mp told with ⟨rfl, rfl⟩ | ⟨body, rfl, filled, toldBody⟩
  · obtain ⟨offset, es', rfl, rest⟩ := Tells.of_opening tells
    refine ⟨es', rest, ?_⟩
    rw [assemble_selfClosing element tag accepts, frame]
  · rw [List.cons_append, List.append_assoc] at tells
    obtain ⟨offset, inner, rfl, rest⟩ := Tells.of_opening tells
    have deeper := Forest.one_le_levels filled
    rw [assemble_opening element tag top below (by omega), frame]
    have notConditional : Frame.isConditional
        { tag := some t, extra := e, running := t.runsWithin top.running } = false := by
      simpa [Frame.isConditional] using h
    obtain ⟨last, closes, step⟩ := content
      { tag := some t, extra := e, running := t.runsWithin top.running } (top :: below) true body
      _ inner (by simp [Frame.Accepts, notConditional]) inside toldBody rfl
      (by simp only [List.length_cons]; omega) rest
    obtain ⟨fresh, added⟩ := Frame.foldl_add_plain notConditional cs
    obtain ⟨offset', es', rfl, rest'⟩ := Tells.of_closing closes
    refine ⟨es', rest', ?_⟩
    rw [step, added, assemble_closing rfl accepts]
    rfl

theorem openedBranch_of_isBareChain {running : Bool} {cs : Forest Tag}
    (h : isBareChain cs = true) (writable : Forest.AreWritableBranches running cs) :
    openedBranch cs = cs := by
  rcases cs with _ | ⟨⟨t, e, bs⟩, rest⟩
  · rfl
  · obtain ⟨plain, rfl, -⟩ := writable
    cases t with
    | statement s =>
      rcases bs with _ | ⟨b, bs⟩ <;> rcases rest with _ | ⟨c, rest⟩ <;> simp [isBareChain] at h
      obtain ⟨condition, dependencies⟩ := s
      obtain rfl : dependencies = [] := by simpa [Tag.isPlainBranch] using plain
      rfl
    | _ => simp [isBareChain] at h

theorem reads_conditional {e : Extra} {cs : Forest Tag} (branches : ReadsAsBranches cs)
    {top : Frame} {below : List Frame} {ns is : List Item} {es : List Event}
    (accepts : top.Accepts) (writable : Node.IsWritable top.running ⟨.conditional, e, cs⟩)
    (told : Node.Told top.running ⟨.conditional, e, cs⟩ ns)
    (shallow : below.length + Node.levels ⟨.conditional, e, cs⟩ ≤ maxDepth + 1)
    (tells : Tells es (ns ++ is)) :
    ∃ es', Tells es' is ∧
      assemble top below es = assemble (top.add ⟨.conditional, e, cs⟩) below es' := by
  obtain ⟨plain, inside⟩ := writable
  have tag : ∀ offset, tagOf (Tag.conditional).label
      (.ofProperties (conditionalElement e cs).properties) offset = .ok .conditional :=
    fun _ => rfl
  have frame : Frame.ofTag .conditional (.ofProperties (conditionalElement e cs).properties)
      top.running =
        { tag := some .conditional
          extra := e
          running := top.running
          children := openedBranch cs } := ofTag_conditional plain cs top.running
  rcases told with ⟨rfl, bareChain⟩ | ⟨body, rfl, filled, told⟩
  · obtain ⟨offset, es', rfl, rest⟩ := Tells.of_opening tells
    refine ⟨es', rest, ?_⟩
    have opened := assemble_selfClosing rfl tag accepts below offset es'
    rw [frame, openedBranch_of_isBareChain bareChain inside] at opened
    exact opened
  · rw [List.cons_append, List.append_assoc] at tells
    obtain ⟨offset, inner, rfl, rest⟩ := Tells.of_opening tells
    rw [Node.levels, filled, if_neg (by simp)] at shallow
    have opened := assemble_opening rfl tag top below (by omega) offset inner
    rw [frame] at opened
    obtain ⟨fresh, last, closes, step⟩ := branches
      { tag := some .conditional, extra := e, running := top.running, children := openedBranch cs }
      (top :: below) true [] body (.closing "If" :: is) inner rfl ⟨rfl, rfl, rfl⟩ inside told rfl
      (by simp only [List.length_cons]; omega) rest
    obtain ⟨offset', es', rfl, rest'⟩ := Tells.of_closing closes
    refine ⟨es', rest', opened.trans (step.trans ?_)⟩
    exact assemble_closing (t := .conditional) rfl accepts below offset' es'

theorem endContent_label {t : Tag} (element : t.isElement = true) (a : Attributes)
    (closes conditional : Bool) (is : List Item) :
    Item.endContent conditional (.opening t.label a closes :: is) = false := by
  simp [Item.endContent, isBranchName_label element]

theorem opening_of_told {t : Tag} {running : Bool} {e : Extra} {cs : Forest Tag}
    {ns : List Item} (text : t.isText = false) (writable : Node.IsWritable running ⟨t, e, cs⟩)
    (told : Node.Told running ⟨t, e, cs⟩ ns) :
    t.isElement = true ∧ ∃ a closes more, ns = .opening t.label a closes :: more := by
  by_cases h : t = .conditional
  · subst h
    rcases told with ⟨rfl, _⟩ | ⟨body, rfl, _⟩
    · exact ⟨rfl, _, _, _, rfl⟩
    · exact ⟨rfl, _, _, _, rfl⟩
  · refine ⟨(Node.isWritable_plain h text writable).1, ?_⟩
    rcases (Node.told_plain h _ _ _ _).mp told with ⟨rfl, _⟩ | ⟨body, rfl, _⟩
    · exact ⟨_, _, _, rfl⟩
    · exact ⟨_, _, _, rfl⟩

/-- What comes after a text in content begins with a tag, and ends the content if nothing of it is
left. -/
theorem endContent_of_told {running conditional : Bool} {rest : Forest Tag} {js is : List Item}
    (writable : Forest.IsWritable running rest)
    (noText : rest.head?.all (fun m => !m.data.isText) = true)
    (told : Forest.Told running false false rest js) (ends : Item.endContent conditional is = true) :
    Item.endContent conditional (js ++ is) = rest.isEmpty ∧
      (js ++ is).head?.all Item.isTag = true := by
  rcases rest with _ | ⟨⟨t, e, cs⟩, rest⟩
  · obtain ⟨run, rfl, none, _⟩ := told
    obtain rfl := none rfl
    exact ⟨ends, Item.isTag_of_endContent ends⟩
  · have text : t.isText = false := by simpa using noText
    obtain ⟨run, ns, js, rfl, none, _, node, _⟩ := (Forest.told_cons text ..).mp told
    obtain rfl := none rfl
    obtain ⟨element, a, closes, more, rfl⟩ := opening_of_told text writable.1 node
    exact ⟨endContent_label element a closes conditional _, rfl⟩

theorem reads_text {value : String} {e : Extra} {cs rest : Forest Tag}
    (after : ReadsAsContent rest) : ReadsAsContent (⟨.text value, e, cs⟩ :: rest) := by
  intro top below apart body is es accepts writable told ends shallow tells
  obtain ⟨⟨running, rfl, rfl, nonempty⟩, apartText, writable⟩ := writable
  obtain ⟨run, js, rfl, rfl, value_eq, told⟩ := told
  obtain ⟨ends', tag⟩ := endContent_of_told writable (apartText rfl) told ends
  rw [List.append_assoc] at tells
  obtain ⟨es', tells', step⟩ := assemble_run tells tag
  rw [← ends'] at value_eq
  have added : top.addText value.toList = top.add (.leaf (.text value)) := by
    have : value.toList ≠ [] := by simpa using nonempty
    simp [Frame.addText, this]
  obtain ⟨es'', tells'', step'⟩ := after (top.add (.leaf (.text value))) below false js is es'
    (accepts.add _) writable told ends
    (by simp only [Forest.levels] at shallow; omega) tells'
  refine ⟨es'', tells'', ?_⟩
  rw [step top below _ value_eq (fun _ => accepts), added, step']
  rfl

theorem reads_cons {t : Tag} {e : Extra} {cs rest : Forest Tag} (text : t.isText = false)
    (content : ReadsAsContent cs) (branches : ReadsAsBranches cs)
    (after : ReadsAsContent rest) : ReadsAsContent (⟨t, e, cs⟩ :: rest) := by
  intro top below apart body is es accepts writable told ends shallow tells
  obtain ⟨node, -, writable⟩ := writable
  obtain ⟨run, ns, js, rfl, -, nothing, toldNode, told⟩ := (Forest.told_cons text ..).mp told
  obtain ⟨element, a, closes, more, opening⟩ := opening_of_told text node toldNode
  rw [Forest.levels] at shallow
  rw [List.append_assoc, List.append_assoc] at tells
  have tag : (ns ++ (js ++ is)).head?.all Item.isTag = true := by simp [opening, Item.isTag]
  obtain ⟨es₁, tells₁, step₁⟩ := assemble_run tells tag
  have goesOn : Item.endContent top.isConditional (ns ++ (js ++ is)) = false := by
    rw [opening]
    exact endContent_label element a closes _ _
  rw [← goesOn] at nothing
  have read : ∃ es₂, Tells es₂ (js ++ is) ∧
      assemble top below es₁ = assemble (top.add ⟨t, e, cs⟩) below es₂ := by
    by_cases h : t = .conditional
    · subst h
      exact reads_conditional branches accepts node toldNode (by omega) tells₁
    · exact reads_plain content h text accepts node toldNode (by omega) tells₁
  obtain ⟨es₂, tells₂, step₂⟩ := read
  obtain ⟨es₃, tells₃, step₃⟩ := after (top.add ⟨t, e, cs⟩) below true js is es₂
    (accepts.add _) writable told ends (by omega) tells₂
  refine ⟨es₃, tells₃, ?_⟩
  rw [step₁ top below [] nothing (by simp)]
  exact step₂.trans step₃

/-- What stands in front of a branch begins it. -/
theorem assemble_lead {t : Tag} {e : Extra} {bs rest done : Forest Tag} {first : Bool}
    (plain : t.isPlainBranch = true) {top : Frame} (h : top.isConditional = true)
    (start : if first then done = [] ∧ top.fresh = true ∧
        top.children = openedBranch (⟨t, e, bs⟩ :: rest) else top.children = done)
    {lead is : List Item} {es : List Event} (leads : LeadsIn top.running first t lead)
    (tells : Tells es (lead ++ is)) (below : List Frame) :
    ∃ es', Tells es' is ∧ assemble top below es =
      assemble { top with fresh := true, children := done ++ [.leaf t] } below es' := by
  have begun : ∀ {top : Frame}, top.children = done →
      top.begin t = { top with fresh := true, children := done ++ [.leaf t] } := by
    rintro top rfl
    rfl
  cases first with
  | false =>
    obtain rfl : lead = [branchItem t] := by cases t <;> exact leads
    obtain ⟨es', tells', step⟩ := assemble_branch plain h tells
    exact ⟨es', tells', by rw [step below, begun start]⟩
  | true =>
    obtain ⟨rfl, fresh, children⟩ := start
    cases t with
    | statement s =>
      obtain rfl : lead = [] := leads
      refine ⟨es, tells, ?_⟩
      obtain ⟨condition, dependencies⟩ := s
      obtain rfl : dependencies = [] := by simpa [Tag.isPlainBranch] using plain
      have : top = { top with fresh := true, children := [Node.leaf (.onCondition condition)] } := by
        rw [← fresh]
        exact congrArg (fun children => { top with children }) children
      exact congrArg (assemble · below es) this
    | fallthrough =>
      obtain ⟨run, rfl, nothing⟩ := leads
      rw [List.append_assoc] at tells
      obtain ⟨es₁, tells₁, step₁⟩ := assemble_run tells rfl
      obtain ⟨es₂, tells₂, step₂⟩ := assemble_branch rfl h tells₁
      refine ⟨es₂, tells₂, ?_⟩
      have ends : Item.endContent top.isConditional
          ([branchItem .fallthrough] ++ is) = true := by
        rw [h]
        rfl
      rw [step₁ top below [] (by rw [fresh, ends, nothing]) (by simp)]
      exact (step₂ below).trans (by rw [begun children])
    | _ => simp [Tag.isPlainBranch] at plain

theorem reads_branch {t : Tag} {e : Extra} {cs rest : Forest Tag} (content : ReadsAsContent cs)
    (after : ReadsAsBranches rest) : ReadsAsBranches (⟨t, e, cs⟩ :: rest) := by
  intro top below first done body is es conditional start writable told ends shallow tells
  obtain ⟨plain, rfl, inside, writable⟩ := writable
  obtain ⟨lead, body, js, rfl, leads, toldBody, told⟩ := told
  rw [Forest.branchLevels] at shallow
  rw [List.append_assoc, List.append_assoc] at tells
  obtain ⟨es₁, tells₁, step₁⟩ := assemble_lead plain conditional start leads tells below
  have ends' : Item.endContent true (js ++ is) = true := by
    rcases rest with _ | ⟨⟨t', e', cs'⟩, rest⟩
    · obtain rfl : js = [] := told
      exact ends
    · obtain ⟨plain', -⟩ := writable
      obtain ⟨lead', body', js', rfl, leads', -⟩ := told
      obtain rfl : lead' = [branchItem t'] := by cases t' <;> exact leads'
      cases t' <;> simp [Tag.isPlainBranch] at plain' <;> rfl
  obtain ⟨es₂, tells₂, step₂⟩ := content
    { top with fresh := true, children := done ++ [.leaf t] } below true body (js ++ is) es₁
    (by simp [Frame.Accepts]) inside toldBody
    (by rw [← ends']; exact congrArg (Item.endContent · (js ++ is)) conditional) (by omega) tells₁
  obtain ⟨fresh, added⟩ := Frame.foldl_add_conditional
    (f := { top with fresh := true, children := done ++ [.leaf t] }) conditional rfl cs
  obtain ⟨fresh', es₃, tells₃, step₃⟩ := after
    { top with fresh, children := done ++ [⟨t, {}, cs⟩] } below false (done ++ [⟨t, {}, cs⟩]) js is
    es₂ conditional (by simp) writable told ends (by omega) tells₂
  refine ⟨fresh', es₃, tells₃, ?_⟩
  rw [step₁, step₂, added]
  refine Eq.trans ?_ (step₃.trans ?_)
  · simp [Node.leaf]
  · simp

/-- Items that tell a forest read back as it. -/
theorem reads_forest (cs : Forest Tag) : ReadsAsContent cs ∧ ReadsAsBranches cs := by
  induction cs using Forest.induction with
  | nil =>
    constructor
    · intro top below apart body is es accepts writable told ends shallow tells
      obtain ⟨run, rfl, -, nothing⟩ := told
      obtain ⟨es', tells', step⟩ := assemble_run tells (Item.isTag_of_endContent ends)
      exact ⟨es', tells', step top below [] (by rw [ends, nothing]) (by simp)⟩
    · intro top below first done body is es conditional start writable told ends shallow tells
      obtain rfl : body = [] := told
      refine ⟨top.fresh, es, tells, ?_⟩
      have children : top.children = done := by
        cases first with
        | false => exact start
        | true =>
          obtain ⟨rfl, -, children⟩ := start
          exact children
      rw [List.append_nil, ← children]
  | cons t e cs rest hcs hrest =>
    refine ⟨?_, reads_branch hcs.1 hrest.2⟩
    cases text : t.isText with
    | false => exact reads_cons text hcs.1 hcs.2 hrest.1
    | true =>
      obtain ⟨value, rfl⟩ := Tag.eq_text_of_isText text
      exact reads_text hrest.1

/-- A document told by items that a text spells is what the text is read as. -/
theorem parse_of_tells {t : Forest Tag} {source : String} {is : List Item}
    (writable : Forest.IsWritable false t) (shallow : Forest.levels t ≤ maxDepth + 1)
    (spells : Spells source.toList is) (told : Forest.Told false true true t is) :
    parse source = .ok t := by
  obtain ⟨ps, scanned, tells⟩ := spells.reads 0
  obtain ⟨es', tells', step⟩ := (reads_forest t).1 {} [] true is [] (Event.ofTokens ps)
    (by simp [Frame.Accepts, Frame.isConditional]) writable told rfl (by simpa using shallow)
    (by rwa [List.append_nil])
  obtain ⟨fresh, added⟩ := Frame.foldl_add_plain (f := {}) rfl t
  obtain rfl : es' = [] := tells'.of_nil
  rw [added] at step
  simp [parse, scan, scanned, bind, Except.bind, step, assemble]

end Markup

end WorldMarkup
