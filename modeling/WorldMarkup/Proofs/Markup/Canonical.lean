import WorldMarkup.Proofs.Layout.Endings
import WorldMarkup.Proofs.RoundTrip
import WorldMarkup.Proofs.World.Spots

/-!
What reading accepts. Main statement: whatever text a document is read from, its branches stand
below conditionals and nowhere else, its texts say something, are apart and lie in fields or
links, nothing in it is inherited or annotated, and it is printed on every page.
-/

set_option autoImplicit false
set_option relaxedAutoImplicit false

namespace WorldMarkup

open Markup Layout

namespace Tag

/-- Whether the content of the tag is running text where the tag itself stands in such. -/
def isPassage : Tag → Bool
  | .conditional | .statement _ | .fallthrough | .remove | .replace | .replaceMatch
  | .replacePayload => true
  | _ => false

/-- Of the tags above a node, the nearest that is no passage. -/
def host? (above : List Tag) : Option Tag := above.find? (fun t => !t.isPassage)

/-- Whether what stands below these tags is running text. -/
def runsBelow (above : List Tag) : Bool := (host? above).any isRunning

theorem runsBelow_cons (t : Tag) (above : List Tag) :
    runsBelow (t :: above) = if t.isPassage then runsBelow above else t.isRunning := by
  unfold runsBelow host?
  rw [List.find?_cons]
  cases t.isPassage <;> rfl

theorem runsBelow_of_category {t : Tag} (above : List Tag) (branch : t.category = .branch) :
    runsBelow (t :: above) = runsBelow above := by
  rw [runsBelow_cons]
  cases t <;> first | rfl | simp [category] at branch

theorem runsWithin_runsBelow {t : Tag} (above : List Tag) (branch : t.category ≠ .branch) :
    t.runsWithin (runsBelow above) = runsBelow (t :: above) := by
  rw [runsBelow_cons]
  cases t <;> first | rfl | simp [category] at branch

theorem category_of_isPlainBranch {t : Tag} (plain : t.isPlainBranch = true) :
    t.category = .branch := by
  cases t <;> simp [isPlainBranch] at plain <;> rfl

theorem exists_host_of_runsBelow {above : List Tag} (h : runsBelow above = true) :
    ∃ host, host? above = some host ∧
      ((∃ f, host = .field f) ∨ ∃ target, host = .link target) := by
  obtain ⟨host, found, running⟩ := (Option.any_eq_true ..).1 h
  refine ⟨host, found, ?_⟩
  cases host <;> simp [isRunning] at running ⊢

end Tag

/-- What reading makes sure of where a node stands. -/
structure Spot.IsCanonical (x : Spot) : Prop where
  branch : x.node.data.category = .branch ↔ x.above.head? = some .conditional
  text : ∀ value, x.node.data = .text value → value ≠ "" ∧ x.node.children = [] ∧
    ∃ host, Tag.host? x.above = some host ∧
      ((∃ f, host = .field f) ∨ ∃ target, host = .link target)
  unmarked : x.node.extra.inherited = false
  unannotated : x.node.data.isUnannotated = true

namespace Spot

variable {t : Tag} {e : Extra} {cs : Forest Tag} {above : List Tag}

theorem isCanonical_of_isWritable (elsewhere : above.head? ≠ some .conditional)
    (writable : Node.IsWritable (Tag.runsBelow above) ⟨t, e, cs⟩) :
    IsCanonical ⟨above, ⟨t, e, cs⟩⟩ := by
  cases text : t.isText with
  | true =>
    obtain ⟨value, rfl⟩ := Tag.eq_text_of_isText text
    obtain ⟨running, rfl, rfl, nonempty⟩ := writable
    refine ⟨by simp [Tag.category, elsewhere], ?_, rfl, rfl⟩
    rintro _ ⟨⟩
    exact ⟨nonempty, rfl, Tag.exists_host_of_runsBelow running⟩
  | false =>
    have silent := Tag.ne_text_of_isText text
    by_cases conditional : t = .conditional
    · subst conditional
      exact ⟨by simp [Tag.category, elsewhere], fun value h => absurd h (silent value), writable.1,
        rfl⟩
    · obtain ⟨element, unannotated, unmarked, -⟩ :=
        Node.isWritable_plain conditional text writable
      have branch := (Tag.still_of_isElement element).2
      exact ⟨by simp [branch, elsewhere], fun value h => absurd h (silent value), unmarked,
        unannotated⟩

theorem isCanonical_of_isPlainBranch (below : above.head? = some .conditional)
    (plain : t.isPlainBranch = true) : IsCanonical ⟨above, ⟨t, {}, cs⟩⟩ := by
  refine ⟨by simp [Tag.category_of_isPlainBranch plain, below], ?_, rfl, ?_⟩
  · rintro value (rfl : t = .text value)
    simp [Tag.isPlainBranch] at plain
  · cases t <;> first | rfl | exact plain | simp [Tag.isPlainBranch] at plain

end Spot

namespace Forest

/-- What is written where it stands is canonical, below a conditional as its branches. -/
theorem isCanonical_spots (cs : Forest Tag) (above : List Tag) :
    (above.head? ≠ some .conditional → IsWritable (Tag.runsBelow above) cs →
      ∀ x ∈ spots above cs, x.IsCanonical) ∧
    (above.head? = some .conditional → AreWritableBranches (Tag.runsBelow above) cs →
      ∀ x ∈ spots above cs, x.IsCanonical) := by
  induction cs using Forest.induction generalizing above with
  | nil => simp [spots]
  | cons t e cs rest hcs hrest =>
    simp only [spots_cons, List.forall_mem_cons, List.forall_mem_append]
    constructor
    · rintro elsewhere ⟨node, -, others⟩
      refine ⟨?_, ?_, (hrest above).1 elsewhere others⟩
      · exact Spot.isCanonical_of_isWritable elsewhere node
      cases text : t.isText with
      | true =>
        obtain ⟨value, rfl⟩ := Tag.eq_text_of_isText text
        obtain ⟨-, -, rfl, -⟩ := node
        simp [spots]
      | false =>
        by_cases conditional : t = .conditional
        · subst conditional
          exact (hcs _).2 rfl node.2
        · obtain ⟨element, -, -, inside⟩ := Node.isWritable_plain conditional text node
          rw [Tag.runsWithin_runsBelow above (Tag.still_of_isElement element).2] at inside
          exact (hcs _).1 (by simpa using conditional) inside
    · rintro conditional ⟨plain, rfl, content, others⟩
      have branch : t.category = .branch := Tag.category_of_isPlainBranch plain
      refine ⟨?_, ?_, (hrest above).2 conditional others⟩
      · exact Spot.isCanonical_of_isPlainBranch conditional plain
      · rw [← Tag.runsBelow_of_category above branch] at content
        refine (hcs _).1 ?_ content
        rintro ⟨⟩
        simp [Tag.category] at branch

theorem textsApart_of_isWritable (cs : Forest Tag) (running : Bool) :
    (IsWritable running cs → textsApart cs = true) ∧
      (AreWritableBranches running cs → textsApart cs = true) := by
  induction cs using Forest.induction generalizing running with
  | nil => exact ⟨fun _ => rfl, fun _ => rfl⟩
  | cons t e cs rest hcs hrest =>
    simp only [textsApart, Node.textsApart, Bool.and_eq_true, Bool.or_eq_true, Bool.not_eq_true']
    constructor
    · rintro ⟨node, apart, others⟩
      have beside := (hrest running).1 others
      cases text : t.isText with
      | true =>
        have alone := apart text
        obtain ⟨value, rfl⟩ := Tag.eq_text_of_isText text
        obtain ⟨-, -, rfl, -⟩ := node
        exact ⟨⟨.inr alone, rfl⟩, beside⟩
      | false =>
        refine ⟨⟨.inl rfl, ?_⟩, beside⟩
        have inside := (isWritable_children (n := ⟨t, e, cs⟩) text node).2.2
        split at inside
        · exact (hcs _).2 inside
        · exact (hcs _).1 inside
    · rintro ⟨plain, -, content, others⟩
      refine ⟨⟨.inl ?_, (hcs running).1 content⟩, (hrest running).2 others⟩
      cases t <;> first | rfl | simp [Tag.isPlainBranch] at plain

theorem mem_spots_of_mem {cs : Forest Tag} {b : Node Tag} (h : b ∈ cs) (above : List Tag) :
    ⟨above, b⟩ ∈ spots above cs := by
  induction cs with
  | nil => simp at h
  | cons m rest ih =>
    obtain ⟨t, e, cs⟩ := m
    rw [spots_cons, List.mem_cons, List.mem_append]
    rcases List.mem_cons.1 h with rfl | h
    · exact .inl rfl
    · exact .inr (.inr (ih h))

theorem exists_spot_of_child {t : Forest Tag} {n b : Node Tag} (tree : n ∈ trees t)
    (child : b ∈ n.children) (above : List Tag) :
    ∃ outer, ⟨n.data :: outer, b⟩ ∈ spots above t := by
  induction t using Forest.induction generalizing above with
  | nil => simp [trees_nil] at tree
  | cons t e cs rest hcs hrest =>
    rw [trees_cons, List.mem_cons, List.mem_append] at tree
    simp only [spots_cons, List.mem_cons, List.mem_append]
    rcases tree with rfl | tree | tree
    · exact ⟨above, .inr (.inl (mem_spots_of_mem child (t :: above)))⟩
    · obtain ⟨outer, found⟩ := hcs tree (t :: above)
      exact ⟨outer, .inr (.inl found)⟩
    · obtain ⟨outer, found⟩ := hrest tree above
      exact ⟨outer, .inr (.inr found)⟩

end Forest

/-- Whatever is read is canonical wherever its nodes stand, has its texts apart, and is printed on
every page. -/
theorem Markup.canonical_of_parse {source : String} {t : Forest Tag}
    (read : parse source = .ok t) :
    (∀ x ∈ Forest.spots [] t, x.IsCanonical) ∧ Forest.textsApart t = true ∧
      ∀ page, ∃ text, print page t = .ok text := by
  obtain ⟨writable, shallow⟩ := isWritable_of_parse read
  have canonical := (Forest.isCanonical_spots t []).1 (by simp) writable
  refine ⟨canonical, (Forest.textsApart_of_isWritable t false).1 writable, fun page => ?_⟩
  refine exists_print page shallow fun n tree conditional b child => ?_
  obtain ⟨outer, found⟩ := Forest.exists_spot_of_child tree child []
  exact (canonical _ found).branch.2 (congrArg some conditional)

def hallByNight : String :=
  "<Asset key=(house)><Room key=(hall)><Summary>Dark\n  <If \x7bnight\x7d>and cold<Else />" ++
    "</If></Summary></Room></Asset>"

theorem Markup.canonical_of_parse_hallByNight : ∃ t, parse hallByNight = .ok t ∧
    (∀ x ∈ Forest.spots [] t, x.IsCanonical) ∧ Forest.textsApart t = true ∧
      ∀ page, ∃ text, print page t = .ok text := by
  have events : (scan hallByNight).map Event.ofTokens = .ok
      [.opening "Asset" { named := [("key", "house")] } false 0,
        .opening "Room" { named := [("key", "hall")] } false 19, .opening "Summary" {} false 36,
        .text [('D', false), ('a', false), ('r', false), ('k', false), ('\n', false),
          (' ', false), (' ', false)] 45,
        .opening "If" { bare := some "night" } false 52,
        .text [('a', false), ('n', false), ('d', false), (' ', false), ('c', false),
          ('o', false), ('l', false), ('d', false)] 64,
        .opening "Else" {} true 72, .closing "If" 80, .closing "Summary" 85, .closing "Room" 95,
        .closing "Asset" 102] := by
    unfold hallByNight
    cbv
  have read : parse hallByNight = .ok
      [.branch (.asset "house") [.branch (.room "hall") [.branch (.field .summary)
        [.leaf (.text "Dark "), .branch .conditional
          [.branch (.onCondition "night") [.leaf (.text "and cold")], .leaf .fallthrough]]]]] := by
    rw [parse_of_events events]
    decide +kernel
  exact ⟨_, read, canonical_of_parse read⟩

end WorldMarkup
