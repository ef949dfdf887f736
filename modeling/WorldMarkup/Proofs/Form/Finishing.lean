import WorldMarkup.Proofs.Form.Declarations
import WorldMarkup.Proofs.Form.Choosing
import WorldMarkup.Proofs.Form.Routing
import WorldMarkup.Proofs.Form.Settling
import WorldMarkup.Proofs.Form.Steady
import WorldMarkup.Proofs.Form.Texts

/-!
Running content as it is finished for a field: its texts are joined, and the marks of inherited
content are taken off. Main statement: content that fits, stands in place and has no fault is so
when it is finished, and settling leaves it alone then.
-/

set_option autoImplicit false
set_option relaxedAutoImplicit false

namespace WorldMarkup

open Growth (regrowth)
open Address (childOrder)

namespace Forest

variable {t : Forest Tag} {c : Option Tag} {m n : Node Tag} {order : List Category}

/-! ### What joining texts leaves -/

theorem mem_glue (ends : TextsAreLeaves t) (hm : m ∈ glue t n) :
    m ∈ t ∨ n.data.isText = false ∧ m = n.joinText ∨
      n.data.isText = true ∧ ∃ value e, m = ⟨.text value, e, []⟩ := by
  rcases n with ⟨d, e, cs⟩
  cases text : d.isText with
  | false =>
    rw [glue_node text, List.mem_append, List.mem_singleton] at hm
    exact hm.imp_right fun same => .inl ⟨rfl, same⟩
  | true =>
    obtain ⟨value, rfl⟩ := Tag.eq_text_of_isText text
    by_cases empty : value = ""
    · rw [empty, glue_empty] at hm
      exact .inl hm
    · rcases endsApart_or t with apart | ⟨u, before, e', cs', rfl⟩
      · rw [glue_text empty apart, List.mem_append, List.mem_singleton] at hm
        exact hm.imp_right fun same => .inr ⟨rfl, value, e, same⟩
      · rw [glue_run, List.mem_append, List.mem_singleton] at hm
        obtain rfl : cs' = [] := ends ⟨.text before, e', cs'⟩ (by simp) rfl
        exact hm.imp (fun h => by simp [h]) fun same => .inr ⟨rfl, before ++ value, e', same⟩

theorem mem_joinText (ends : TextsAreLeaves t) (hm : m ∈ joinText t) :
    (∃ n ∈ t, n.data.isText = false ∧ m = n.joinText) ∨
      (∃ n ∈ t, n.data.isText = true) ∧ ∃ value e, m = ⟨.text value, e, []⟩ := by
  suffices ∀ u : Forest Tag, TextsAreLeaves u → m ∈ t.foldl glue u → m ∈ u ∨
      (∃ n ∈ t, n.data.isText = false ∧ m = n.joinText) ∨
      (∃ n ∈ t, n.data.isText = true) ∧ ∃ value e, m = ⟨.text value, e, []⟩ by
    rw [joinText_eq_foldl ends] at hm
    simpa using this [] (by simp [TextsAreLeaves]) hm
  clear hm ends
  induction t with
  | nil => exact fun u _ hm => .inl hm
  | cons n t ih =>
    intro u leaves hm
    rcases ih (glue u n) (leaves.glue n) hm with hm | ⟨x, hx, found⟩ | ⟨⟨x, hx, text⟩, found⟩
    · rcases mem_glue leaves hm with hm | ⟨plain, same⟩ | ⟨text, found⟩
      · exact .inl hm
      · exact .inr (.inl ⟨n, by simp, plain, same⟩)
      · exact .inr (.inr ⟨⟨n, by simp, text⟩, found⟩)
    · exact .inr (.inl ⟨x, by simp [hx], found⟩)
    · exact .inr (.inr ⟨⟨x, by simp [hx], text⟩, found⟩)

/-! ### Content that fits -/

theorem fits_iff : Forest.Fits c t ↔ ∀ n ∈ t, n.Fits c := by
  induction t with
  | nil => simp [Forest.Fits]
  | cons n t ih => rw [Forest.Fits, ih, List.forall_mem_cons]

theorem areBranches_iff : Forest.AreBranches c t ↔
    ∀ b ∈ t, b.data.category = .branch ∧ Forest.Fits c b.children := by
  induction t with
  | nil => simp [Forest.AreBranches]
  | cons n t ih =>
    obtain ⟨d, e, cs⟩ := n
    rw [Forest.AreBranches, ih, List.forall_mem_cons, and_assoc]

theorem inPlaceAfter_of_still {t : Forest Tag} {backward : List Tag}
    (still : ∀ n ∈ t, n.data.category = .inline ∨ n.data = .conditional)
    (below : ∀ n ∈ t, n.InPlace (regrowth childOrder)) :
    InPlaceAfter (regrowth childOrder) backward t := by
  induction t generalizing backward with
  | nil => trivial
  | cons n t ih =>
    obtain ⟨own, still⟩ := List.forall_mem_cons.1 still
    obtain ⟨inside, below⟩ := List.forall_mem_cons.1 below
    refine ⟨Rules.finds_eq_false fun x _ _ _ => ?_, ?_, inside, ih still below⟩
    · refine (Tag.same_comm x n.data).trans (Tag.same_eq_false_of_still (own.imp_right ?_))
      rintro same
      rw [same]
      rfl
    · have unranked : (regrowth childOrder).rank? ((regrowth childOrder).category n.data) = none := by
        have category : n.data.category = .inline ∨ n.data.category = .conditional :=
          own.imp_right fun same => by rw [same]; rfl
        rcases category with category | category <;>
          simp [Rules.rank?, regrowth, worldRules, childOrder, category]
      rw [Rules.outranked]
      cases backward.head? <;> simp [Rules.ranksBelow, unranked]

theorem InPlaceAfter.map {r : Rules Tag Category} {f : Node Tag → Node Tag} {t : Forest Tag}
    {backward : List Tag} (h : InPlaceAfter r backward t)
    (each : ∀ n ∈ t, (f n).data = n.data ∧ (n.InPlace r → (f n).InPlace r)) :
    InPlaceAfter r backward (List.map f t) := by
  induction t generalizing backward with
  | nil => trivial
  | cons n t ih =>
    obtain ⟨unfound, last, inside, beside⟩ := h
    obtain ⟨⟨data, below⟩, each⟩ := List.forall_mem_cons.1 each
    refine ⟨by rwa [data], by rwa [data], below inside, ?_⟩
    rw [data]
    exact ih beside each

end Forest

/-- Running content as it grows: it fits, it stands in place, and it has no fault. -/
structure Node.IsComposed (context : Tag) (depth : Nat) (n : Node Tag) : Prop where
  fits : n.Fits (some context)
  inPlace : n.InPlace (regrowth childOrder)
  faultless : n.fault? Tag.isWrapper depth = none

namespace Forest

variable {t : Forest Tag} {context : Tag} {depth : Nat}

theorem InPlaceAfter.nodes {r : Rules Tag Category} {t : Forest Tag} {backward : List Tag}
    (h : InPlaceAfter r backward t) : ∀ n ∈ t, n.InPlace r := by
  induction t generalizing backward with
  | nil => simp
  | cons n t ih =>
    obtain ⟨-, -, inside, beside⟩ := h
    exact List.forall_mem_cons.2 ⟨inside, ih beside⟩

theorem still_of_fits {n : Node Tag} (opened : context.stills = true)
    (fits : n.Fits (some context)) : n.data.category = .inline ∨ n.data = .conditional := by
  obtain ⟨d, e, cs⟩ := n
  obtain ⟨stands, -⟩ := fits
  cases context <;> simp [Tag.stills, Tag.category] at opened <;> cases d <;>
    simp_all [Tag.standsIn, Tag.allows, Tag.isInlineContent, Tag.category, Tag.isText, Tag.text?]

theorem isComposed_joinText (opened : context.stills = true)
    (h : ∀ n ∈ t, n.IsComposed context depth)
    (each : ∀ n ∈ t, n.joinText.IsComposed context depth) :
    ∀ m ∈ joinText t, m.IsComposed context depth := by
  intro m hm
  have ends : TextsEnd t := textsEnd_of_fits.1 (fits_iff.2 fun n hn => (h n hn).fits)
  rcases mem_joinText ends.roots hm with ⟨n, hn, -, rfl⟩ | ⟨⟨⟨d, e', cs⟩, hn, text⟩, value, e, rfl⟩
  · exact each n hn
  · obtain ⟨other, rfl⟩ := Tag.eq_text_of_isText text
    obtain ⟨⟨stands, -⟩, -, faultless⟩ := h _ hn
    refine ⟨⟨?_, trivial⟩, trivial, Node.fault?_eq_none.2 ⟨(Node.fault?_eq_none.1 faultless).1,
      fun _ => rfl, rfl⟩⟩
    cases context <;> simp_all [Tag.stills, Tag.category, Tag.standsIn, Tag.allows,
      Tag.isInlineContent, Tag.isText, Tag.text?]

end Forest

/-- Joining the texts of running content leaves it as it grows. -/
theorem Node.isComposed_joinText (n : Node Tag) :
    (∀ {context : Tag} {depth : Nat}, context.stills = true → n.IsComposed context depth →
      n.joinText.IsComposed context depth) ∧
    ∀ {context : Tag} {depth : Nat}, context.stills = true →
      (∀ m ∈ n.children, m.IsComposed context depth) →
        ∀ m ∈ Forest.joinText n.children, m.IsComposed context depth := by
  induction n using Node.induction with
  | node d e cs ih =>
    have inside {context : Tag} {depth : Nat} (opened : context.stills = true)
        (h : ∀ m ∈ cs, m.IsComposed context depth) :=
      Forest.isComposed_joinText opened h fun n hn => (ih n hn).1 opened (h n hn)
    refine ⟨fun {context depth} opened h => ?_, inside⟩
    have still := Forest.still_of_fits opened h.fits
    obtain ⟨⟨stands, fits⟩, inPlace, faultless⟩ := h
    obtain ⟨short, filled, below⟩ := Node.fault?_eq_none.1 faultless
    have below := Forest.faultAt?_eq_none_iff.1 below
    by_cases conditional : d = .conditional
    · subst conditional
      rw [if_pos rfl] at fits
      obtain ⟨some, branches⟩ := fits
      have branches := Forest.areBranches_iff.1 branches
      have joined : Forest.joinTextAfter none cs = List.map Node.joinText cs :=
        Forest.joinTextAfter_branches (fun b hb => (branches b hb).1) none
      have each : ∀ b ∈ cs, ∀ m ∈ Forest.joinText b.children,
          m.IsComposed context (depth + 2) := by
        intro b hb
        obtain ⟨d', e', cs'⟩ := b
        obtain ⟨-, -, faultless⟩ := Node.fault?_eq_none.1 (below _ hb)
        refine (ih _ hb).2 opened fun m hm => ⟨Forest.fits_iff.1 (branches _ hb).2 m hm, ?_,
          Forest.faultAt?_eq_none_iff.1 faultless m hm⟩
        exact Forest.InPlaceAfter.nodes (Forest.InPlaceAfter.nodes inPlace _ hb) m hm
      rw [Node.joinText, joined]
      refine ⟨⟨stands, ?_⟩, ?_, Node.fault?_eq_none.2 ⟨short, by simpa using filled, ?_⟩⟩
      · rw [if_pos rfl]
        refine ⟨by simpa using some, Forest.areBranches_iff.2 fun b hb => ?_⟩
        obtain ⟨⟨d', e', cs'⟩, hx, rfl⟩ := List.mem_map.1 hb
        exact ⟨(branches _ hx).1, Forest.fits_iff.2 fun m hm => (each _ hx m hm).fits⟩
      · refine Forest.InPlaceAfter.map inPlace fun b hb => ?_
        obtain ⟨d', e', cs'⟩ := b
        refine ⟨rfl, fun _ => ?_⟩
        exact Forest.inPlaceAfter_of_still
          (fun m hm => Forest.still_of_fits opened (each _ hb m hm).fits)
          fun m hm => (each _ hb m hm).inPlace
      · refine Forest.faultAt?_eq_none_iff.2 fun b hb => ?_
        obtain ⟨⟨d', e', cs'⟩, hx, rfl⟩ := List.mem_map.1 hb
        obtain ⟨short, -, -⟩ := Node.fault?_eq_none.1 (below _ hx)
        have branch : d'.isWrapper = false := by
          have branch : d'.category = .branch := (branches _ hx).1
          cases d' <;> first | rfl | simp [Tag.category] at branch
        exact Node.fault?_eq_none.2 ⟨short, fun _ => branch,
          Forest.faultAt?_eq_none_iff.2 fun m hm => (each _ hx m hm).faultless⟩
    · rw [if_neg conditional] at fits
      have inline : d.category = .inline := still.resolve_right conditional
      have opened' : d.stills = true := by simp [Tag.stills, inline]
      have contents : ∀ n ∈ cs, n.IsComposed d (depth + 1) := fun n hn =>
        ⟨Forest.fits_iff.1 fits n hn, Forest.InPlaceAfter.nodes inPlace n hn, below n hn⟩
      have joined := inside opened' contents
      have plain : d.isWrapper = false := by
        cases d <;> simp_all [Tag.category, Tag.isWrapper]
      refine ⟨⟨stands, ?_⟩, Forest.inPlaceAfter_of_still
        (fun m hm => Forest.still_of_fits opened' (joined m hm).fits)
        fun m hm => (joined m hm).inPlace, Node.fault?_eq_none.2 ⟨short, fun _ => plain,
          Forest.faultAt?_eq_none_iff.2 fun m hm => (joined m hm).faultless⟩⟩
      rw [if_neg conditional]
      exact Forest.fits_iff.2 fun m hm => (joined m hm).fits

namespace Forest

variable {t : Forest Tag} {context : Tag} {depth : Nat}

theorem fits_stripInherited (t : Forest Tag) :
    (∀ c, Forest.Fits c t → Forest.Fits c (Forest.stripInherited t)) ∧
      ∀ c, Forest.AreBranches c t → Forest.AreBranches c (Forest.stripInherited t) := by
  induction t using Forest.induction with
  | nil => exact ⟨fun _ h => h, fun _ h => h⟩
  | cons d e cs rest hcs hrest =>
    refine ⟨fun c h => ⟨⟨h.1.1, ?_⟩, hrest.1 c h.2⟩, fun c h => ⟨h.1, hcs.1 c h.2.1, hrest.2 c h.2.2⟩⟩
    obtain ⟨⟨-, fits⟩, -⟩ := h
    split at fits
    · rename_i conditional
      rw [if_pos conditional]
      refine ⟨?_, hcs.2 c fits.2⟩
      rw [stripInherited_eq_map]
      simpa using fits.1
    · rename_i plain
      rw [if_neg plain]
      exact hcs.1 _ fits

theorem InPlaceAfter.stripInherited {r : Rules Tag Category} {backward : List Tag}
    (h : InPlaceAfter r backward t) : InPlaceAfter r backward (Forest.stripInherited t) := by
  induction t using Forest.induction generalizing backward with
  | nil => trivial
  | cons d e cs rest hcs hrest =>
    obtain ⟨unfound, last, inside, beside⟩ := h
    exact ⟨unfound, last, hcs inside, hrest beside⟩

theorem isComposed_finish (opened : context.stills = true)
    (h : ∀ n ∈ t, n.IsComposed context depth) :
    ∀ m ∈ ComponentField.finish t, m.IsComposed context depth := by
  have joined := isComposed_joinText opened h
    fun n hn => (Node.isComposed_joinText n).1 opened (h n hn)
  have faultless := faultAt?_stripInherited
    (faultAt?_eq_none_iff.2 fun m hm => (joined m hm).faultless)
  have inPlace : InPlaceAfter (regrowth childOrder) [] (joinText t) := inPlaceAfter_of_still
    (fun m hm => still_of_fits opened (joined m hm).fits) fun m hm => (joined m hm).inPlace
  have inPlace := inPlace.stripInherited
  have fits := (fits_stripInherited _).1 _ (fits_iff.2 fun m hm => (joined m hm).fits)
  exact fun m hm => ⟨fits_iff.1 fits m hm, inPlace.nodes m hm, faultAt?_eq_none_iff.1 faultless m hm⟩

theorem isKept_of_fits (opened : context.stills = true) (fits : Forest.Fits (some context) t) :
    ∀ x ∈ preorder t, x.1.isKept = true := by
  intro x hx
  have inner : context.category = .field ∨ context.category = .inline := by
    cases context <;> simp [Tag.stills, Tag.category] at opened <;> simp [Tag.category]
  obtain ⟨p, hp, s, hs, rfl⟩ := exists_path_of_mem_preorder hx 0
  exact (Path.isKept_of_fits inner p).1 (Path.fits_of_mem.1 fits p hp) s hs

theorem isFinished_finish (opened : context.stills = true) (low : depth + 1 ≤ maxDepth)
    (composed : ∀ n ∈ t, n.IsComposed context (depth + 1))
    (unmarked : IsLocal (ComponentField.finish t)) : IsFinished (ComponentField.finish t) := by
  have finished := isComposed_finish opened composed
  have fits : Forest.Fits (some context) (ComponentField.finish t) :=
    fits_iff.2 fun m hm => (finished m hm).fits
  have ends : TextsEnd t := textsEnd_of_fits.1 (fits_iff.2 fun n hn => (composed n hn).fits)
  refine ⟨isEditFree_of_fits.1 fits, ?_, ?_, unmarked⟩
  · have := depth_of_faultAt? low (faultAt?_eq_none_iff.2 fun m hm => (finished m hm).faultless)
    omega
  · exact ((isJoined_stripInherited _).2 (isJoined_joinText ends)).joinText_eq
      (textsEnd_of_fits.1 fits)

end Forest

end WorldMarkup
