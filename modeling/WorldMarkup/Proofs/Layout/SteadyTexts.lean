import WorldMarkup.Proofs.Layout.Printing
import WorldMarkup.Proofs.Layout.SteadyTags

/-!
Documents that are written steadily: no property holds two carriage returns before a line break,
and no text ends in one. Main statement: their elements have steady tags.
-/

set_option autoImplicit false
set_option relaxedAutoImplicit false

namespace WorldMarkup.Layout

open Markup

/-! ### Nodes that are written steadily -/

/-- Whether a node is written steadily: no property of it has two carriage returns before a line
break, and if it is a text it does not end in one. -/
def IsWrittenSteadily (x : Tag × Extra) : Prop :=
  (∀ p ∈ x.1.properties ++ x.2.properties, ¬ ['\r', '\r', '\n'] <:+: p.render) ∧
    ∀ value ∈ x.1.text?, value.toList.getLast? ≠ some '\r'

/-- Whether every node of a forest is written steadily. -/
def HasSteadyTexts (t : Forest Tag) : Prop := ∀ x ∈ Forest.preorder t, IsWrittenSteadily x

instance (x : Tag × Extra) : Decidable (IsWrittenSteadily x) :=
  inferInstanceAs (Decidable ((∀ p ∈ x.1.properties ++ x.2.properties, _) ∧ ∀ value ∈ x.1.text?, _))

instance (t : Forest Tag) : Decidable (HasSteadyTexts t) :=
  inferInstanceAs (Decidable (∀ x ∈ Forest.preorder t, IsWrittenSteadily x))

theorem hasSteadyTexts_cons {t : Tag} {e : Extra} {cs rest : Forest Tag} :
    HasSteadyTexts (⟨t, e, cs⟩ :: rest) ↔
      IsWrittenSteadily (t, e) ∧ HasSteadyTexts cs ∧ HasSteadyTexts rest := by
  simp only [HasSteadyTexts, Forest.preorder, Node.preorder, List.cons_append,
    List.forall_mem_cons, List.forall_mem_append]

theorem steady_escapeText {value : List Char} (last : value.getLast? ≠ some '\r') :
    IsSteady (escapeText value) := by
  apply isSteady_of_oneLine
  · simp only [escapeText, List.mem_flatMap, not_exists, not_and]
    exact fun c _ => escapeTextChar_oneLine c
  · rcases List.eq_nil_or_concat value with rfl | ⟨front, c, rfl⟩
    · simp [escapeText]
    · have noReturn : c ≠ '\r' := by simpa using last
      rw [List.concat_eq_append, escapeText, List.flatMap_append, List.getLast?_append]
      simp only [List.flatMap_cons, List.flatMap_nil, List.append_nil]
      unfold escapeTextChar
      split <;> simp [noReturn]

theorem steady_label (t : Tag) : IsSteady t.label.toList := by
  cases t with
  | entity e =>
    show IsSteady e.kind.label.toList
    rcases e.kind with _ | _ | _ | ⟨_ | _ | _ | _ | _ | _ | _ | _ | _⟩ <;> decide
  | field f => cases f <;> decide
  | _ => simp only [Tag.label]; decide

/-- Whether what is written of a property starts with a character that ends no line. -/
def StartsPlainly (p : Property) : Prop := ∃ c rest, p.render = c :: rest ∧ c ≠ '\n' ∧ c ≠ '\r'

theorem startsPlainly_named {name : String} (h : isName name.toList = true) (v : PropertyValue) :
    StartsPlainly (.named name v) := by
  cases hn : name.toList with
  | nil => simp [hn, isName] at h
  | cons c rest =>
    rw [hn, isName, Bool.and_eq_true] at h
    refine ⟨c, rest ++ '=' :: v.render, by rw [Property.render, hn]; rfl, ?_, ?_⟩ <;> rintro rfl <;>
      exact absurd h.1 (by decide)

theorem startsPlainly_optional {name : String} (h : isName name.toList = true)
    {value : Option PropertyValue} : ∀ p ∈ Property.optional name value, StartsPlainly p := by
  intro p hp
  cases value with
  | none => simp [Property.optional] at hp
  | some v =>
    obtain rfl : p = .named name v := by simpa [Property.optional] using hp
    exact startsPlainly_named h v

theorem startsPlainly_of_mem {t : Tag} {e : Extra} :
    ∀ p ∈ t.properties ++ e.properties, StartsPlainly p := by
  have entity : ∀ e : Entity, ∀ p ∈ e.properties, StartsPlainly p := by
    intro e
    rcases e with _ | v | c | i <;>
      simp only [Entity.properties, List.forall_mem_cons, List.forall_mem_append, List.not_mem_nil,
        false_imp_iff, implies_true, and_true]
    · exact ⟨startsPlainly_named (by decide) _, startsPlainly_optional (by decide)⟩
    · exact ⟨startsPlainly_named (by decide) _, startsPlainly_optional (by decide),
        startsPlainly_optional (by decide)⟩
    · exact ⟨startsPlainly_named (by decide) _, startsPlainly_optional (by decide),
        startsPlainly_named (by decide) _⟩
    · exact ⟨startsPlainly_named (by decide) _, startsPlainly_optional (by decide),
        startsPlainly_optional (by decide)⟩
  rw [List.forall_mem_append]
  refine ⟨?_, startsPlainly_optional (by decide)⟩
  cases t with
  | entity e => exact entity e
  | statement s => simpa [Tag.properties] using ⟨'\x7b', _, rfl, by decide, by decide⟩
  | pronouns p =>
    simp only [Tag.properties, List.forall_mem_cons, List.not_mem_nil, false_imp_iff,
      implies_true, and_true]
    refine ⟨?_, ?_, ?_, ?_, ?_⟩ <;> exact startsPlainly_named (by decide) _
  | position room x y =>
    simp only [Tag.properties, List.forall_mem_cons, List.not_mem_nil, false_imp_iff,
      implies_true, and_true]
    refine ⟨?_, ?_, ?_⟩ <;> exact startsPlainly_named (by decide) _
  | exit key target =>
    simp only [Tag.properties, List.forall_mem_cons, List.not_mem_nil, false_imp_iff,
      implies_true, and_true]
    exact ⟨startsPlainly_named (by decide) _, startsPlainly_named (by decide) _⟩
  | asset key => simpa [Tag.properties] using startsPlainly_named (by decide) _
  | link target => simpa [Tag.properties] using startsPlainly_named (by decide) _
  | imported source => simpa [Tag.properties] using startsPlainly_named (by decide) _
  | _ => simp [Tag.properties]

theorem hasSteadyTags_of_properties {e : Element} (name : IsSteady e.name.toList)
    (starts : ∀ p ∈ e.properties, StartsPlainly p)
    (breaks : ∀ p ∈ e.properties, ¬ ['\r', '\r', '\n'] <:+: p.render) : HasSteadyTags e := by
  refine ⟨name, fun p hp n => ?_⟩
  obtain ⟨c, rest, hc, noBreak, noReturn⟩ := starts p hp
  have last : p.render.getLast? ≠ some '\r' := by
    obtain ⟨front, d, hd, ends⟩ := mayEnd_render p
    intro h
    rw [hd, List.getLast?_concat] at h
    obtain rfl := Option.some.inj h
    simp [mayEnd] at ends
  have steady := isSteady_of_singleReturns (breaks p hp) last
  rw [hc] at steady ⊢
  exact isSteadyAfter_of_head steady noBreak noReturn

/-- The tags of a node are steady when it is written steadily, and its children are: a conditional
shows the condition of its first branch. -/
theorem hasSteadyTags_element {t : Tag} {e : Extra} {cs : Forest Tag}
    (own : IsWrittenSteadily (t, e)) (inside : HasSteadyTexts cs) :
    HasSteadyTags (Node.element ⟨t, e, cs⟩) := by
  have plain : ∀ {t : Tag} {e : Extra}, IsWrittenSteadily (t, e) →
      ∀ p ∈ t.properties ++ e.properties,
        StartsPlainly p ∧ ¬ ['\r', '\r', '\n'] <:+: p.render :=
    fun steady p hp => ⟨startsPlainly_of_mem p hp, steady.1 p hp⟩
  have properties : ∀ p ∈ (Node.element ⟨t, e, cs⟩).properties,
      StartsPlainly p ∧ ¬ ['\r', '\r', '\n'] <:+: p.render := by
    by_cases conditional : t = .conditional
    · subst conditional
      intro p hp
      rcases List.mem_append.mp hp with hp | hp
      · rcases cs with _ | ⟨⟨b, x, bs⟩, rest⟩
        · simp at hp
        · cases b with
          | statement s =>
            exact plain (hasSteadyTexts_cons.1 inside).1 p (List.mem_append_left _ hp)
          | _ => simp at hp
      · exact plain own p (List.mem_append_right _ hp)
    · rw [Node.element_plain conditional]
      exact plain own
  have name : IsSteady (Node.element ⟨t, e, cs⟩).name.toList := by
    by_cases conditional : t = .conditional
    · subst conditional
      exact steady_label .conditional
    · rw [Node.element_plain conditional]
      exact steady_label t
  exact hasSteadyTags_of_properties name (fun p hp => (properties p hp).1)
    (fun p hp => (properties p hp).2)

end WorldMarkup.Layout
