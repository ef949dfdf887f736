import Mathlib
import WorldMarkup.Proofs.Layout.Printing
import WorldMarkup.Proofs.Markup.Image
import WorldMarkup.Proofs.World.WellFormed

/-!
Printing and reading back. Main statements: a canonical document, printed on a page of any width
whose margin is made of spaces and tabulators, reads back as itself; and so does whatever has been
read, well formed or not, if its keys and its expressions break no line. A key may be read that
does, and then the margin gets into it.
-/

set_option autoImplicit false
set_option relaxedAutoImplicit false

namespace WorldMarkup

open Markup Layout

/-! ### Canonical documents -/

namespace Tag

/-- Values that stand between parentheses. -/
def keys : Tag → List String
  | .asset key => [key]
  | .entity e => e.key :: e.source.toList
  | .exit key target => [key, target]
  | .position room _ _ => [room]
  | .link target => [target]
  | .imported source => [source]
  | _ => []

/-- Expressions, which stand between braces as they are. -/
def expressions : Tag → List String
  | .statement s => [s.condition]
  | .entity (.variable v) => v.initial.toList
  | .entity (.computed c) => [c.expression]
  | _ => []

end Tag

/-- A document in the form that reading gives it: well formed, without marks of inherited content,
notes of dependencies, or names where none are written; its texts hold characters and stand apart;
its keys and expressions break no line, and the braces of its expressions close each other. -/
structure Forest.IsCanonical (t : Forest Tag) : Prop where
  valid : Forest.validate t = .ok ()
  plain : ∀ x ∈ Forest.preorder t, x.1.IsPlain x.2
  apart : Forest.textsApart t = true
  keys : ∀ x ∈ Forest.preorder t, ∀ s ∈ x.1.keys ++ x.2.id.toList, '\n' ∉ s.toList
  expressions : ∀ x ∈ Forest.preorder t, ∀ s ∈ x.1.expressions,
    '\n' ∉ s.toList ∧ isBalanced s.toList = true

/-! ### Properties -/

namespace Property

variable {name : String}

theorem isSound_key (h : isName name.toList = true) {s : String} (oneLine : '\n' ∉ s.toList) :
    (Property.named name (.key s)).IsSound := by
  refine ⟨by simp [isReadable, h, PropertyValue.isClosed], ?_⟩
  have escaped : '\n' ∉ escapeKey s.toList := by
    simp only [escapeKey, List.mem_flatMap, not_exists, not_and]
    intro c hc
    rcases escapeKeyChar_cases c with ⟨hesc, hn, -⟩ | ⟨hesc, -, -⟩
    · simp [hesc, Ne.symm hn]
    · rw [hesc, List.mem_singleton]
      rintro rfl
      exact oneLine hc
  simp [render, PropertyValue.render, oneLine_of_isName h, escaped]

theorem isSound_literal (h : isName name.toList = true) (s : String) :
    (Property.named name (.literal s)).IsSound := by
  refine ⟨by simp [isReadable, h, PropertyValue.isClosed], ?_⟩
  have escaped : '\n' ∉ escapeLiteral s.toList := by
    simp only [escapeLiteral, List.mem_flatMap, not_exists, not_and]
    intro c _
    unfold escapeLiteralChar
    split
    · decide
    · decide
    · decide
    · simpa using Ne.symm (by assumption)
  simp [render, PropertyValue.render, oneLine_of_isName h, escaped]

theorem isSound_expression (h : isName name.toList = true) {s : String}
    (closed : '\n' ∉ s.toList ∧ isBalanced s.toList = true) :
    (Property.named name (.expression s)).IsSound := by
  refine ⟨by simp [isReadable, h, PropertyValue.isClosed, closed.2], ?_⟩
  simp [render, PropertyValue.render, oneLine_of_isName h, closed.1]

theorem isSound_condition {s : String} (closed : '\n' ∉ s.toList ∧ isBalanced s.toList = true) :
    (Property.condition s).IsSound :=
  ⟨closed.2, by simp [render, PropertyValue.render, closed.1]⟩

end Property

theorem closed_toString_int64 (x : Int64) :
    '\n' ∉ (toString x).toList ∧ isBalanced (toString x).toList = true := by
  have chars : ∀ c ∈ (toString x).toList, c = '-' ∨ c.isDigit = true := by
    rw [toList_toString_int64]
    cases x.toInt with
    | ofNat n => exact fun c hc => .inr (Nat.isDigit_of_mem_toDigits (by decide) (by decide) hc)
    | negSucc n =>
      intro c hc
      exact (List.mem_cons.mp hc).imp_right (Nat.isDigit_of_mem_toDigits (by decide) (by decide))
  constructor
  · intro hn
    rcases chars _ hn with h | h <;> exact absurd h (by decide)
  · have balanced : ∀ cs : List Char, (∀ c ∈ cs, c = '-' ∨ c.isDigit = true) →
        balancedFrom {} cs = true := by
      intro cs
      induction cs with
      | nil => exact fun _ => rfl
      | cons c cs ih =>
        intro h
        simp only [List.mem_cons, forall_eq_or_imp] at h
        have still : BraceScan.step {} c = {} := by
          have apart : c ≠ '"' ∧ c ≠ '\'' ∧ c ≠ '\x60' ∧ c ≠ '\x7b' ∧ c ≠ '\x7d' := by
            refine ⟨?_, ?_, ?_, ?_, ?_⟩ <;> rintro rfl <;>
              rcases h.1 with h | h <;> exact absurd h (by decide)
          simp [BraceScan.step, apart]
        simp [balancedFrom, still, ih h.2]
    exact balanced _ chars

theorem Property.isSound_optional {name : String} {value : Option PropertyValue}
    (h : ∀ v ∈ value, (Property.named name v).IsSound) :
    ∀ p ∈ Property.optional name value, p.IsSound := by
  intro p hp
  cases value with
  | none => simp [Property.optional] at hp
  | some v =>
    obtain rfl : p = .named name v := by simpa [Property.optional] using hp
    exact h v rfl

theorem Entity.isSound_properties {e : Entity}
    (keys : ∀ s ∈ (Tag.entity e).keys, '\n' ∉ s.toList)
    (expressions : ∀ s ∈ (Tag.entity e).expressions,
      '\n' ∉ s.toList ∧ isBalanced s.toList = true) :
    ∀ p ∈ e.properties, p.IsSound := by
  have key : (Property.named "key" (.key e.key)).IsSound :=
    Property.isSound_key (by decide) (keys e.key (by simp [Tag.keys]))
  have source : ∀ p ∈ Property.optional "from" (e.source.map .key), p.IsSound := by
    refine Property.isSound_optional fun v hv => ?_
    obtain ⟨s, hs, rfl⟩ := Option.map_eq_some_iff.mp hv
    exact Property.isSound_key (by decide) (keys s (by simp [Tag.keys, hs]))
  intro p hp
  rcases List.mem_cons.mp hp with rfl | hp
  · exact key
  rcases List.mem_append.mp hp with hp | hp
  · exact source p hp
  rcases e with ⟨kind, k, src⟩ | v | c | i
  · simp at hp
  · refine Property.isSound_optional (fun x hx => ?_) p hp
    obtain ⟨s, hs, rfl⟩ := Option.map_eq_some_iff.mp hx
    exact Property.isSound_expression (by decide)
      (expressions s (by simp [Tag.expressions, hs]))
  · obtain rfl : p = .named "src" (.expression c.expression) := by simpa using hp
    exact Property.isSound_expression (by decide) (expressions _ (by simp [Tag.expressions]))
  · refine Property.isSound_optional (fun x hx => ?_) p hp
    obtain ⟨s, hs, rfl⟩ := Option.map_eq_some_iff.mp hx
    exact Property.isSound_literal (by decide) s

theorem isSound_properties {t : Tag} {e : Extra}
    (keys : ∀ s ∈ t.keys ++ e.id.toList, '\n' ∉ s.toList)
    (expressions : ∀ s ∈ t.expressions, '\n' ∉ s.toList ∧ isBalanced s.toList = true) :
    ∀ p ∈ t.properties ++ e.properties, p.IsSound := by
  have id : ∀ p ∈ e.properties, p.IsSound := by
    refine Property.isSound_optional fun v hv => ?_
    obtain ⟨s, hs, rfl⟩ := Option.map_eq_some_iff.mp hv
    exact Property.isSound_key (by decide) (keys s (by simp [hs]))
  have keys : ∀ s ∈ t.keys, '\n' ∉ s.toList := fun s hs => keys s (by simp [hs])
  have tag : ∀ p ∈ t.properties, p.IsSound := by
    cases t with
    | entity e => exact Entity.isSound_properties keys expressions
    | asset key =>
      simp only [Tag.properties, List.mem_singleton, forall_eq]
      exact Property.isSound_key (by decide) (keys key (by simp [Tag.keys]))
    | exit key target =>
      simp only [Tag.properties, List.mem_cons, List.not_mem_nil, or_false, forall_eq_or_imp,
        forall_eq]
      exact ⟨Property.isSound_key (by decide) (keys key (by simp [Tag.keys])),
        Property.isSound_key (by decide) (keys target (by simp [Tag.keys]))⟩
    | position room x y =>
      simp only [Tag.properties, List.mem_cons, List.not_mem_nil, or_false, forall_eq_or_imp,
        forall_eq]
      exact ⟨Property.isSound_key (by decide) (keys room (by simp [Tag.keys])),
        Property.isSound_expression (by decide) (closed_toString_int64 x),
        Property.isSound_expression (by decide) (closed_toString_int64 y)⟩
    | pronouns p =>
      simp only [Tag.properties, List.mem_cons, List.not_mem_nil, or_false, forall_eq_or_imp,
        forall_eq]
      refine ⟨?_, ?_, ?_, ?_, ?_⟩ <;> exact Property.isSound_literal (by decide) _
    | link target =>
      simp only [Tag.properties, List.mem_singleton, forall_eq]
      exact Property.isSound_key (by decide) (keys target (by simp [Tag.keys]))
    | imported source =>
      simp only [Tag.properties, List.mem_singleton, forall_eq]
      exact Property.isSound_key (by decide) (keys source (by simp [Tag.keys]))
    | statement s =>
      simp only [Tag.properties, List.mem_singleton, forall_eq]
      exact Property.isSound_condition (expressions _ (by simp [Tag.expressions]))
    | _ => simp [Tag.properties]
  intro p hp
  exact (List.mem_append.mp hp).elim (tag p) (id p)

/-! ### Round trip -/

theorem Forest.IsCanonical.grammar {t : Forest Tag} (h : t.IsCanonical) :
    (∀ n ∈ t, n.data.isContainer = true) ∧ Forest.grammarFault? none 0 t = none := by
  have valid := h.valid
  unfold Forest.validate Forest.documentFault? at valid
  cases stranger : t.reverse.find? (fun n => !n.data.isContainer) with
  | some n => simp [stranger] at valid
  | none =>
    refine ⟨fun n hn => ?_, ?_⟩
    · have := List.find?_eq_none.mp stranger n (by simpa using hn)
      simpa using this
    · cases fault : Forest.grammarFault? none 0 t with
      | none => rfl
      | some f => simp [stranger, fault] at valid

theorem isWritable_of_roots {t : Forest Tag} (roots : ∀ n ∈ t, n.data.isContainer = true)
    (h : Forest.grammarFault? none 0 t = none) (plain : ∀ x ∈ Forest.preorder t, x.1.IsPlain x.2)
    (apart : Forest.textsApart t = true) : Forest.IsWritable false t := by
  induction t with
  | nil => trivial
  | cons n rest ih =>
    obtain ⟨t, e, cs⟩ := n
    obtain ⟨-, inside, others⟩ := grammarFault?_cons h
    simp only [Forest.preorder, Node.preorder, List.cons_append, List.mem_cons, List.mem_append,
      forall_eq_or_imp] at plain
    simp only [List.mem_cons, forall_eq_or_imp] at roots
    simp only [Forest.textsApart, Node.textsApart, Bool.and_eq_true] at apart
    obtain ⟨plainNode, plain⟩ := plain
    have container : t.isContainer = true := roots.1
    have still : t ≠ .conditional ∧ t.isText = false ∧ t.category ≠ .branch ∧
        t.isRunning = false ∧ t.runsWithin false = false := by
      cases t <;> simp [Tag.isContainer] at container <;>
        simp [Tag.isText, Tag.text?, Tag.category, Tag.isRunning, Tag.runsWithin]
    obtain ⟨notConditional, text, notBranch, notRunning, runs⟩ := still
    have content := isWritable_of_grammarFault? inside (fun x hx => plain x (.inl hx)) apart.1.2
    have setting : Setting.below none t = ⟨t, t⟩ := rfl
    rw [setting, if_neg notConditional, notRunning] at content
    refine ⟨Node.isWritable_of_plain notConditional text notBranch
      ⟨plainNode.unannotated, plainNode.unmarked, by rwa [runs]⟩, by simp [text],
      ih roots.2 others (fun x hx => plain x (.inr hx)) apart.2⟩

theorem parse_print_of_isWritable {t : Forest Tag} (writable : Forest.IsWritable false t)
    (shallow : Forest.levels t ≤ maxDepth + 1) (sound : HasSoundProperties t) {page : Page}
    (plain : page.IsPlain) : ∃ s, print page t = .ok s ∧ parse s = .ok t := by
  obtain ⟨text, is, printed, spells, told⟩ := printList_tells plain writable sound shallow true
  refine ⟨String.ofList text, by simp [print, printed, Except.map], ?_⟩
  exact parse_of_tells writable shallow (by simpa using spells) told

/-- A canonical document is printed, and what is printed of it reads back as the document. -/
theorem parse_print {t : Forest Tag} (canonical : t.IsCanonical) {page : Page}
    (plain : page.IsPlain) : ∃ s, print page t = .ok s ∧ parse s = .ok t := by
  obtain ⟨roots, grammar⟩ := canonical.grammar
  have writable := isWritable_of_roots roots grammar canonical.plain canonical.apart
  have deep : Forest.depth t ≤ maxDepth := by
    simpa using depth_of_grammarFault? grammar (Nat.zero_le maxDepth)
  have shallow := (Forest.levels_le_depth t).1
  have sound : HasSoundProperties t := fun x hx =>
    isSound_properties (canonical.keys x hx) (canonical.expressions x hx)
  exact parse_print_of_isWritable writable (by omega) sound plain

/-- A room with a name, running text with a choice and a link in it, and a way out. -/
def townSquare : Forest Tag :=
  [.branch (.asset "town")
    [⟨.room "square", .named "a-1",
      [.branch (.field .name) [.leaf (.text "Square <east>")],
        .branch (.field .description)
          [.leaf (.text "You see "),
            .branch .conditional
              [.branch (.onCondition "day > 1") [.leaf (.text "people at the")],
                .branch .fallthrough [.leaf (.text "an empty")]],
            .leaf (.text " "), .branch (.link "well") [.leaf (.text "well")]],
        .leaf (.exit "north" "gate")]⟩]]

theorem parse_print_townSquare : townSquare.IsCanonical ∧
    ∃ s, print { width := 20, indent := "\t" } townSquare = .ok s ∧ parse s = .ok townSquare := by
  have canonical : townSquare.IsCanonical := by
    refine ⟨by decide, ?_, by decide, by decide, by decide⟩
    intro x hx
    have : x.1.isUnannotated = true ∧ x.2.inherited = false ∧
        (x.1.isElement = false → x.2.id = none) ∧ x.1 ≠ .text "" := by
      revert x
      decide
    exact ⟨this.1, this.2.1, this.2.2.1, this.2.2.2⟩
  refine ⟨canonical, parse_print canonical fun c hc => ?_⟩
  obtain rfl : c = '\t' := by simpa [Page.margin] using hc
  exact .inr rfl

/-! ### What has been read -/

/-- Whatever a document was read from, it is printed, and what is printed of it reads back as the
document, if its keys and names and its expressions break no line, and the braces of its
expressions close each other. -/
theorem parse_print_of_parse {source : String} {t : Forest Tag} (read : parse source = .ok t)
    (keys : ∀ x ∈ Forest.preorder t, ∀ s ∈ x.1.keys ++ x.2.id.toList, '\n' ∉ s.toList)
    (expressions : ∀ x ∈ Forest.preorder t, ∀ s ∈ x.1.expressions,
      '\n' ∉ s.toList ∧ isBalanced s.toList = true)
    {page : Page} (plain : page.IsPlain) : ∃ s, print page t = .ok s ∧ parse s = .ok t := by
  obtain ⟨writable, shallow⟩ := isWritable_of_parse read
  have sound : HasSoundProperties t := fun x hx =>
    isSound_properties (keys x hx) (expressions x hx)
  exact parse_print_of_isWritable writable shallow sound plain

theorem parse_of_events {source : String} {es : List Event}
    (h : (scan source).map Event.ofTokens = .ok es) : parse source = assemble {} [] es := by
  rw [parse]
  cases scanned : scan source with
  | error e => simp [scanned, Except.map] at h
  | ok ps =>
    obtain rfl : Event.ofTokens ps = es := by simpa [scanned, Except.map] using h
    rfl

def houseByNight : String :=
  "<Asset key=\"house\">\n<Variable key=\x7bmood\x7d\n\tdefault=(calm) /><If \x7bnight\x7d>" ++
    "<Room key=(hall)></Room><Else /></If></Asset>"

theorem parse_print_of_parse_houseByNight : ∃ t s, parse houseByNight = .ok t ∧
    print { width := 20, indent := "\t" } t = .ok s ∧ parse s = .ok t := by
  have events : (scan houseByNight).map Event.ofTokens = .ok
      [.opening "Asset" { named := [("key", "house")] } false 0, .text [('\n', false)] 19,
        .opening "Variable" { named := [("key", "mood"), ("default", "calm")] } true 20,
        .opening "If" { bare := some "night" } false 59,
        .opening "Room" { named := [("key", "hall")] } false 71, .closing "Room" 88,
        .opening "Else" {} true 95, .closing "If" 103, .closing "Asset" 108] := by
    unfold houseByNight
    cbv
  have read : parse houseByNight = .ok
      [.branch (.asset "house")
        [.leaf (.entity (.variable { key := "mood", initial := some "calm" })),
          .branch .conditional
            [.branch (.onCondition "night") [.leaf (.room "hall")], .leaf .fallthrough]]] :=
    parse_of_events events
  have plain : Page.IsPlain { width := 20, indent := "\t" } := by
    intro c hc
    obtain rfl : c = '\t' := by simpa [Page.margin] using hc
    exact .inr rfl
  obtain ⟨s, printed, again⟩ := parse_print_of_parse read (by decide) (by decide) plain
  exact ⟨_, s, read, printed, again⟩

def houseOf (key : String) : Forest Tag := [.branch (.asset "house") [.leaf (.room key)]]

/-- A key that breaks a line is printed as it is, and on a page too narrow for the whole document
the line after the break gets the margin of its place, which reads back as a part of the key. -/
theorem parse_print_houseOf_twoLines : ∃ s,
    parse "<Asset key=(house)><Room key=(hall\nway) /></Asset>" = .ok (houseOf "hall\nway") ∧
      print { width := 20 } (houseOf "hall\nway") = .ok s ∧
      parse s = .ok (houseOf "hall\n  way") ∧ houseOf "hall\n  way" ≠ houseOf "hall\nway" := by
  have written : (scan "<Asset key=(house)><Room key=(hall\nway) /></Asset>").map
      Event.ofTokens = .ok
        [.opening "Asset" { named := [("key", "house")] } false 0,
          .opening "Room" { named := [("key", "hall\nway")] } true 19, .closing "Asset" 42] := by
    cbv
  have printed : (scan "<Asset key=(house)>\n  <Room key=(hall\n  way) />\n</Asset>\n").map
      Event.ofTokens = .ok
        [.opening "Asset" { named := [("key", "house")] } false 0,
          .text [('\n', false), (' ', false), (' ', false)] 19,
          .opening "Room" { named := [("key", "hall\n  way")] } true 22,
          .text [('\n', false)] 47, .closing "Asset" 48, .text [('\n', false)] 56] := by
    cbv
  exact ⟨"<Asset key=(house)>\n  <Room key=(hall\n  way) />\n</Asset>\n",
    parse_of_events written, by cbv, parse_of_events printed, by decide⟩

end WorldMarkup
