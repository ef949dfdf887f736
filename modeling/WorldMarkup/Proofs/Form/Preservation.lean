import Mathlib
import WorldMarkup.Proofs.Form.Marks
import WorldMarkup.World.Chain

/-!
Standardizing keeps what a reader meets. Main statement: every field of every component holds the
marks that the documents have in it, each of them once and in their order.
-/

set_option autoImplicit false
set_option relaxedAutoImplicit false

namespace WorldMarkup

open Standardize

namespace Address

variable {a : Address} {above above' : List Tag}

/-- Two trails cover the same below them. -/
def Alike (a : Address) (above above' : List Tag) : Prop :=
  ∀ more, a.covers (above ++ more) = a.covers (above' ++ more)

theorem Alike.below (h : a.Alike above above') (t : Tag) :
    a.Alike (above ++ [t]) (above' ++ [t]) := by
  intro more
  rw [List.append_assoc, List.append_assoc]
  exact h ([t] ++ more)

theorem Alike.skip (h : a.Alike above above') {t : Tag} (hd : isDeclaration t = false)
    (hentity : t.entity? = none) (hfield : t.field? = none) : a.Alike (above ++ [t]) above' := by
  intro more
  rw [← h more]
  simp [covers, hd, hentity, hfield]

theorem marksIn_append (t u : Forest Tag) :
    Forest.marksIn a above (t ++ u) = Forest.marksIn a above t ++ Forest.marksIn a above u := by
  induction t with
  | nil => rfl
  | cons n t ih => rw [List.cons_append, Forest.marksIn, Forest.marksIn, ih, List.append_assoc]

theorem marksIn_liftInherited (b : Bool) (t : Forest Tag) (h : a.Alike above above') :
    Forest.marksIn a above' (Forest.liftInherited b t) = Forest.marksIn a above t := by
  induction t using Forest.induction generalizing b above above' with
  | nil => rfl
  | cons t e cs rest hcs hrest =>
    rw [Forest.liftInherited, marksIn_append, hrest b h, Forest.marksIn]
    refine congrArg (· ++ _) ?_
    rw [Node.liftInherited, Node.marksIn]
    by_cases ht : t = .inherited
    · subst ht
      rw [if_pos rfl, hcs true (h.skip (t := .inherited) rfl rfl rfl)]
      simp [Tag.marks]
    · have hhere := h [t]
      rw [if_neg ht, Forest.marksIn, Node.marksIn, hcs _ (h.below t), hhere]
      simp [Forest.marksIn]

theorem marksIn_rootContent {n : Node Tag} (h : n.data.isContainer = true) :
    Forest.marksIn a [] (rootContent n) = n.marksIn a [] := by
  rcases n with ⟨t, e, cs⟩
  have hsame : a.Alike [] [] := fun _ => rfl
  cases t with
  | asset key =>
    have hbelow := marksIn_liftInherited false cs
      (hsame.skip (t := .asset key) rfl rfl rfl)
    rw [rootContent, hbelow, Node.marksIn]
    simp [Tag.marks]
  | entity x =>
    have hnode := marksIn_liftInherited false [⟨.entity x, e, cs⟩] hsame
    simpa [rootContent, Forest.liftInherited, Forest.marksIn] using hnode
  | _ => simp [Tag.isContainer] at h

theorem marksIn_roots {t : Forest Tag} (h : ∀ n ∈ t, n.data.isContainer = true) :
    Forest.marksIn a [] (t.flatMap rootContent) = Forest.marksIn a [] t := by
  induction t with
  | nil => rfl
  | cons n t ih =>
    rw [List.flatMap_cons, marksIn_append, marksIn_rootContent (h n (by simp)), Forest.marksIn,
      ih (fun m hm => h m (by simp [hm]))]

theorem marksIn_combined {inputs : List (Forest Tag)}
    (accepted : ∀ t ∈ inputs, Forest.documentFault? t = none) :
    Forest.marksIn a [] (combined inputs) = inputs.flatMap (Forest.marksIn a []) := by
  rw [combined]
  induction inputs with
  | nil => rfl
  | cons t inputs ih =>
    have hroots := (Forest.documentFault?_none (accepted t (by simp))).1
    rw [List.flatMap_cons, List.flatMap_cons, marksIn_append, marksIn_roots hroots,
      ih (fun u hu => accepted u (by simp [hu]))]

theorem marks_content {t : Forest Tag} (h : Forest.Fits none t) :
    Forest.marks (a.content t) = Forest.marksIn a [] t := by
  have hreach : a.Reaches [] .outside := ⟨rfl, rfl, rfl⟩
  have hsuits : Suits .outside none := fun hw => absurd hw (by simp)
  rw [content, ComponentField.finish, Forest.marks_stripInherited,
    Forest.marks_joinText (Forest.textsEnd_of_fits.1 (fits_excerpt_top a h))]
  exact (marks_excerpt hsuits hreach).1 h

end Address

theorem Component.Holds.field? {c : Component} {content : FieldKind → Forest Tag}
    (h : c.Holds content) {f : FieldKind} (hf : c.kind.hasField f = true) :
    c.field? f = some (.branch (.field f) (content f)) := by
  have hmem : f ∈ c.kind.fields := List.contains_iff_mem.1 hf
  have hfind : c.kind.fields.find? (fun g => decide (g = f)) = some f := by
    cases hfound : c.kind.fields.find? (fun g => decide (g = f)) with
    | none => exact absurd (List.find?_eq_none.1 hfound f hmem) (by simp)
    | some g =>
      have hg := List.find?_some hfound
      rw [of_decide_eq_true hg]
  have hholding : c.kind.fields.find? ((fun x : ComponentField => decide (x.kind = f)) ∘
      fun g => ComponentField.holding g (content g)) = some f := hfind
  rw [Component.field?, h, List.find?_map, hholding]
  rfl

/-- Nothing in a field is lost, duplicated, moved or out of order. -/
theorem standardize_marks {inputs : List (Forest Tag)}
    (free : ∀ t ∈ inputs, Forest.IsEditFree t) {form : Form} (h : standardize inputs = .ok form)
    {key : String} {c : Component} (hc : form.component? key = some c) {f : FieldKind}
    (hf : c.kind.hasField f = true) :
    ∃ n, c.field? f = some n ∧
      Forest.marks [n] = inputs.flatMap (Forest.marksIn ⟨c.kind, c.key, f⟩ []) := by
  obtain ⟨accepted, hfits⟩ := fits_of_standardize free h
  obtain ⟨-, hholds⟩ := standardize_holdsContent free h key c hc
  refine ⟨_, hholds.field? hf, ?_⟩
  rw [← Address.marksIn_combined accepted, ← Address.marks_content hfits, Node.branch,
    Forest.marks_cons]
  simp [Tag.marks]

/-- A square that stands in two documents and under both branches of a conditional. -/
def squareByNight : List (Forest Tag) :=
  [[.branch (.asset "base")
    [.branch (.room "square")
      [.branch (.field .name) [.leaf (.text "Square")],
        .branch (.field .description) [.leaf (.text "You see ")]]]],
    [.branch (.asset "town")
      [.branch .conditional
        [.branch (.onCondition "night")
          [.branch (.room "square") [.branch (.field .description) [.leaf (.text "nobody")]]],
          .branch .fallthrough
            [.branch (.room "square")
              [.branch (.field .description)
                [.branch (.link "well") [.leaf (.text "a well")]]]]]]]]

theorem standardize_marks_squareByNight :
    ∃ form c n, standardize squareByNight = .ok form ∧ form.component? "square" = some c ∧
      c.field? .description = some n ∧
      Forest.marks [n] = "You see nobody".toList.map .char ++ [.link "well"] ++
        "a well".toList.map .char := by
  have free : ∀ t ∈ squareByNight, Forest.IsEditFree t := by decide
  have found : ((standardize squareByNight).toOption.bind (·.component? "square")).map
      (fun c => (c.kind, c.key)) = some (.plain .room, "square") := by
    cbv
  cases h : standardize squareByNight with
  | error e => simp [h, Except.toOption] at found
  | ok form =>
    cases hc : form.component? "square" with
    | none => simp [h, hc, Except.toOption] at found
    | some c =>
      obtain ⟨hkind, hkey⟩ : c.kind = .plain .room ∧ c.key = "square" := by
        simpa [h, hc, Except.toOption] using found
      obtain ⟨n, hn, hmarks⟩ := standardize_marks (f := .description) free h hc (by rw [hkind]; rfl)
      refine ⟨form, c, n, rfl, hc, hn, ?_⟩
      rw [hmarks, hkind, hkey]
      rfl

/-- A choice whose branches hold different rooms. -/
def roomByCondition : Node Tag :=
  .branch .conditional
    [.branch (.onCondition "night") [.leaf (.room "cellar")],
      .branch (.onCondition "feast")
        [.branch (.room "hall") [.branch (.field .description) [.leaf (.text "candles")]]]]

/-- A branch that holds other rooms only leaves no trace in the copy of its conditional: where
every condition holds the documents choose that branch, and the copy the one after it. -/
theorem standardize_select_roomByCondition :
    ∃ form n copy, standardize [[.branch (.asset "house") [roomByCondition]]] = .ok form ∧
      (form.component? "hall").bind (fun c => c.field? .description) = some n ∧
      n.children = [copy] ∧
      (roomByCondition.select (fun _ => true)).map Selection.contents =
        .ok [.leaf (.room "cellar")] ∧
      (copy.select (fun _ => true)).map Selection.contents = .ok [.leaf (.text "candles")] := by
  let copy : Node Tag :=
    .branch .conditional [.branch (.onCondition "feast") [.leaf (.text "candles")]]
  have found : (standardize [[.branch (.asset "house") [roomByCondition]]]).toOption.bind
      (fun form => (form.component? "hall").bind (fun c => c.field? .description)) =
        some (.branch (.field .description) [copy]) := by
    cbv
  cases hform : standardize [[.branch (.asset "house") [roomByCondition]]] with
  | error e => simp [hform, Except.toOption] at found
  | ok form =>
    refine ⟨form, .branch (.field .description) [copy], copy, rfl, ?_, rfl, rfl, rfl⟩
    simpa [hform, Except.toOption] using found

end WorldMarkup
