import WorldMarkup.Markup.Parse
import WorldMarkup.Proofs.Markup.Spelling

/-!
Tags from their attributes. The attributes that the properties of a tag are read as give the tag
back, decimal coordinates included; a name given to the node does not get in the way.
-/

set_option autoImplicit false
set_option relaxedAutoImplicit false

namespace WorldMarkup

open Markup

theorem Except.bind_eq_ok {ε β γ : Type} {x : Except ε β} {f : β → Except ε γ} {c : γ} :
    x >>= f = .ok c ↔ ∃ b, x = .ok b ∧ f b = .ok c := by
  cases x with
  | error e => simp [bind, Except.bind]
  | ok b => simp [bind, Except.bind]

/-! ### Decimal numbers -/

namespace Markup

theorem isBlank_of_isDigit {c : Char} (h : c.isDigit = true) : Text.isBlank c = false := by
  simp only [Char.isDigit, Bool.and_eq_true, decide_eq_true_eq, UInt32.le_iff_toNat_le] at h
  have low : 48 ≤ c.toNat := h.1
  have high : c.toNat ≤ 57 := h.2
  simp only [Text.isBlank, Bool.or_eq_false_iff, Bool.and_eq_false_iff, decide_eq_false_iff_not,
    beq_eq_false_iff_ne]
  omega

theorem trimList_of_ends {cs : List Char} (first : cs.head?.all (fun c => !Text.isBlank c) = true)
    (last : cs.getLast?.all (fun c => !Text.isBlank c) = true) : Text.trimList cs = cs := by
  have drop : ∀ ds : List Char, ds.head?.all (fun c => !Text.isBlank c) = true →
      ds.dropWhile Text.isBlank = ds := by
    intro ds h
    cases ds with
    | nil => rfl
    | cons d ds => simp_all
  rw [Text.trimList, drop cs first, drop cs.reverse (by simpa using last), List.reverse_reverse]

theorem toList_toString_int64 (x : Int64) :
    (toString x).toList = match x.toInt with
      | .ofNat n => Nat.toDigits 10 n
      | .negSucc n => '-' :: Nat.toDigits 10 (n + 1) := by
  show (toString x.toInt).toList = _
  cases x.toInt with
  | ofNat n => simp [toString, Int.repr, Nat.toList_repr]
  | negSucc n => simp [toString, Int.repr, Nat.toList_repr]

theorem trimList_toDigits (cs : List Char) (n : Nat)
    (first : cs.head?.all (fun c => !Text.isBlank c) = true) :
    Text.trimList (cs ++ Nat.toDigits 10 n) = cs ++ Nat.toDigits 10 n := by
  have blankless : ∀ c ∈ Nat.toDigits 10 n, Text.isBlank c = false := fun c hc =>
    isBlank_of_isDigit (Nat.isDigit_of_mem_toDigits (by decide) (by decide) hc)
  refine trimList_of_ends ?_ ?_
  · cases cs with
    | nil =>
      obtain ⟨d, ds, hd⟩ := List.exists_cons_of_ne_nil (Nat.toDigits_ne_nil (b := 10) (n := n))
      simp [hd, blankless d (by simp [hd])]
    | cons c cs => simpa using first
  · rw [List.getLast?_append, List.getLast?_eq_some_getLast Nat.toDigits_ne_nil]
    simp [blankless _ (List.getLast_mem Nat.toDigits_ne_nil)]

/-- A coordinate is read back from its decimal text. -/
theorem integer?_toString (x : Int64) : integer? (toString x) = some x := by
  have low := x.le_toInt
  have high := x.toInt_lt
  have digits : ∀ n, (Nat.toDigits 10 n).all Char.isDigit = true := fun n =>
    List.all_eq_true.mpr fun c hc => Nat.isDigit_of_mem_toDigits (by decide) (by decide) hc
  have text := toList_toString_int64 x
  cases hx : x.toInt with
  | ofNat n =>
    simp only [hx] at text
    have trim := trimList_toDigits [] n rfl
    obtain ⟨d, ds, hd⟩ := List.exists_cons_of_ne_nil (Nat.toDigits_ne_nil (b := 10) (n := n))
    have isDigit : d.isDigit = true :=
      Nat.isDigit_of_mem_toDigits (b := 10) (n := n) (by decide) (by decide) (by simp [hd])
    have number : Nat.ofDigitChars 10 (d :: ds) 0 = n := by rw [← hd]; simp
    have all := digits n
    rw [List.nil_append, hd] at trim
    rw [hd] at text all
    unfold integer?
    rw [text, trim]
    split
    · rename_i h
      exact absurd isDigit (by rw [(List.cons.inj h).1]; decide)
    · rename_i h
      exact absurd isDigit (by rw [(List.cons.inj h).1]; decide)
    · rw [hx, Int.ofNat_eq_natCast] at low high
      have value : Int64.ofInt (n : Int) = x := by
        rw [← Int.ofNat_eq_natCast, ← hx]
        simp
      simp only [List.isEmpty_cons, all, number, Bool.not_true, Bool.or_self,
        Bool.false_eq_true, if_false, value]
      rw [if_pos ⟨by omega, by omega⟩]
  | negSucc n =>
    simp only [hx] at text
    have trim := trimList_toDigits ['-'] (n + 1) (by decide)
    unfold integer?
    rw [text]
    rw [List.singleton_append] at trim
    rw [trim]
    rw [hx] at low high
    have value : Int64.ofInt (-((n + 1 : Nat) : Int)) = x := by
      rw [show (-((n + 1 : Nat) : Int)) = x.toInt by rw [hx]; omega]
      simp
    have isEmpty : (Nat.toDigits 10 (n + 1)).isEmpty = false := by simp [Nat.toDigits_ne_nil]
    simp only [isEmpty, digits, Nat.ofDigitChars_ten_toDigits, Bool.not_true, Bool.or_self,
      Bool.false_eq_true, if_false, if_true, value]
    rw [if_pos ⟨by omega, by omega⟩]

end Markup

/-! ### Tags -/

def Property.valueOf? (name : String) : Property → Option String
  | .condition _ => none
  | .named n v => if n = name then some v.value else none

theorem Markup.Attributes.get?_foldl_note (ps : List Property) (a : Attributes) (name : String) :
    (ps.foldl note a).get? name = (a.get? name).or (ps.findSome? (Property.valueOf? name)) := by
  induction ps generalizing a with
  | nil => simp
  | cons p ps ih =>
    rw [List.foldl_cons, ih]
    cases p with
    | condition s => simp [note, get?, Property.valueOf?, List.findSome?_cons]
    | named n v =>
      by_cases h : n = name
      · simp [note, get?, Property.valueOf?, h, List.find?_append]
        cases List.find? (fun x => x.1 == name) a.named <;> simp
      · simp [note, get?, Property.valueOf?, h, List.find?_append]

namespace Tag

def isElement : Tag → Bool
  | .text _ | .statement _ | .fallthrough => false
  | _ => true

/-- Whether nothing is noted of the names that expressions read. -/
def isUnannotated : Tag → Bool
  | .statement s => s.dependencies.isEmpty
  | .entity (.computed c) => c.dependencies.isEmpty
  | _ => true

def attributes (t : Tag) (e : Extra) : Attributes := .ofProperties (t.properties ++ e.properties)

theorem get?_attributes (t : Tag) (e : Extra) (name : String) :
    (t.attributes e).get? name =
      (t.properties ++ e.properties).findSome? (Property.valueOf? name) := by
  rw [attributes, Attributes.ofProperties, Attributes.get?_foldl_note]
  rfl

theorem findSome?_idProperty (e : Extra) (name : String) :
    e.properties.findSome? (Property.valueOf? name) = if name = "id" then e.id else none := by
  cases h : e.id with
  | none => simp [Extra.properties, Property.optional, h]
  | some s =>
    by_cases hn : "id" = name
    · subst hn
      simp [Extra.properties, Property.optional, h, Property.valueOf?, PropertyValue.value]
    · simp [Extra.properties, Property.optional, h, Property.valueOf?, hn, Ne.symm hn]

theorem find?_entityLabel (kind : EntityKind) :
    EntityKind.all.find? (fun k => k.label == kind.label) = some kind := by
  rcases kind with _ | _ | _ | ⟨_ | _ | _ | _ | _ | _ | _ | _ | _ | _⟩ <;> decide

theorem find?_fieldLabel (f : FieldKind) :
    EntityKind.all.find? (fun k => k.label == f.label) = none ∧
      FieldKind.all.find? (fun k => k.label == f.label) = some f := by
  cases f <;> decide

theorem entityOf_attributes (e : Entity) (x : Extra)
    (plain : (Tag.entity e).isUnannotated = true) :
    entityOf e.kind ((Tag.entity e).attributes x) = .ok e := by
  rcases e with ⟨kind, key, source⟩ | ⟨key, source, initial⟩ |
    ⟨key, source, expression, dependencies⟩ | ⟨key, source, url⟩
  · cases source <;>
    simp [entityOf, Attributes.need, get?_attributes, Tag.properties, Entity.properties,
      Property.optional, Property.valueOf?, PropertyValue.value, findSome?_idProperty,
      Entity.kind, Entity.key, Entity.source, bind, Except.bind, pure, Except.pure]
  · cases source <;> cases initial <;>
    simp [entityOf, Attributes.need, get?_attributes, Tag.properties, Entity.properties,
      Property.optional, Property.valueOf?, PropertyValue.value, findSome?_idProperty,
      Entity.kind, Entity.key, Entity.source, bind, Except.bind, pure, Except.pure]
  · obtain rfl : dependencies = [] := by simpa [isUnannotated] using plain
    cases source <;>
    simp [entityOf, Attributes.need, get?_attributes, Tag.properties, Entity.properties,
      Property.optional, Property.valueOf?, PropertyValue.value, findSome?_idProperty,
      Entity.kind, Entity.key, Entity.source, bind, Except.bind, pure, Except.pure]
  · cases source <;> cases url <;>
    simp [entityOf, Attributes.need, get?_attributes, Tag.properties, Entity.properties,
      Property.optional, Property.valueOf?, PropertyValue.value, findSome?_idProperty,
      Entity.kind, Entity.key, Entity.source, bind, Except.bind, pure, Except.pure]

theorem tagOf_attributes {t : Tag} (x : Extra) (element : t.isElement = true)
    (plain : t.isUnannotated = true) (offset : Nat) :
    tagOf t.label (t.attributes x) offset = .ok t := by
  cases t with
  | entity e =>
    simp only [tagOf, label, find?_entityLabel]
    rw [entityOf_attributes e x plain]
    rfl
  | field f => simp only [tagOf, label, find?_fieldLabel]
  | text _ => simp [isElement] at element
  | statement _ => simp [isElement] at element
  | fallthrough => simp [isElement] at element
  | position room a b =>
    show otherOf "Position" _ offset = _
    simp [otherOf, Attributes.number, Attributes.need, get?_attributes, Tag.properties,
      Property.valueOf?, PropertyValue.value, bind, Except.bind, pure, Except.pure,
      integer?_toString]
  | pronouns p =>
    show otherOf "Pronouns" _ offset = _
    simp [otherOf, get?_attributes, Tag.properties, Property.valueOf?, PropertyValue.value]
  | asset key =>
    show otherOf "Asset" _ offset = _
    simp [otherOf, Attributes.need, get?_attributes, Tag.properties, Property.valueOf?,
      PropertyValue.value, bind, Except.bind, pure, Except.pure]
  | exit key target =>
    show otherOf "Exit" _ offset = _
    simp [otherOf, Attributes.need, get?_attributes, Tag.properties, Property.valueOf?,
      PropertyValue.value, bind, Except.bind, pure, Except.pure]
  | link target =>
    show otherOf "Link" _ offset = _
    simp [otherOf, Attributes.need, get?_attributes, Tag.properties, Property.valueOf?,
      PropertyValue.value, bind, Except.bind, pure, Except.pure]
  | imported source =>
    show otherOf "Import" _ offset = _
    simp [otherOf, Attributes.need, get?_attributes, Tag.properties, Property.valueOf?,
      PropertyValue.value, bind, Except.bind, pure, Except.pure]
  | _ => rfl

theorem get?_id_attributes (t : Tag) (x : Extra) : (t.attributes x).get? "id" = x.id := by
  rw [get?_attributes, List.findSome?_append, findSome?_idProperty, if_pos rfl]
  suffices h : t.properties.findSome? (Property.valueOf? "id") = none by rw [h]; rfl
  cases t with
  | entity e =>
    rcases e with ⟨kind, key, source⟩ | ⟨key, source, initial⟩ |
      ⟨key, source, expression, dependencies⟩ | ⟨key, source, url⟩
    · cases source <;>
      simp [properties, Entity.properties, Property.optional, Property.valueOf?, Entity.source]
    · cases source <;> cases initial <;>
      simp [properties, Entity.properties, Property.optional, Property.valueOf?, Entity.source]
    · cases source <;>
      simp [properties, Entity.properties, Property.optional, Property.valueOf?, Entity.source]
    · cases source <;> cases url <;>
      simp [properties, Entity.properties, Property.optional, Property.valueOf?, Entity.source]
  | _ => simp [properties, Property.valueOf?]

theorem isUnannotated_of_entityOf {kind : EntityKind} {a : Attributes} {e : Entity}
    (h : entityOf kind a = .ok e) : (Tag.entity e).isUnannotated = true := by
  obtain ⟨key, -, h⟩ := Except.bind_eq_ok.1 h
  obtain rfl := Except.ok.inj h
  cases kind <;> rfl

theorem isElement_of_otherOf {name : String} {a : Attributes} {offset : Nat} {t : Tag}
    (h : otherOf name a offset = .ok t) : t.isElement = true ∧ t.isUnannotated = true := by
  unfold otherOf at h
  split at h
  case h_1 | h_5 | h_13 =>
    obtain ⟨key, -, h⟩ := Except.bind_eq_ok.1 h
    obtain rfl := Except.ok.inj h
    exact ⟨rfl, rfl⟩
  case h_2 =>
    obtain ⟨key, -, h⟩ := Except.bind_eq_ok.1 h
    obtain ⟨target, -, h⟩ := Except.bind_eq_ok.1 h
    obtain rfl := Except.ok.inj h
    exact ⟨rfl, rfl⟩
  case h_3 =>
    obtain ⟨room, -, h⟩ := Except.bind_eq_ok.1 h
    obtain ⟨x, -, h⟩ := Except.bind_eq_ok.1 h
    obtain ⟨y, -, h⟩ := Except.bind_eq_ok.1 h
    obtain rfl := Except.ok.inj h
    exact ⟨rfl, rfl⟩
  case h_16 => simp at h
  all_goals
    obtain rfl := Except.ok.inj h
    exact ⟨rfl, rfl⟩

/-- Whatever an opening tag gives, its tag is that of an element, with nothing noted of
expressions. -/
theorem isElement_of_tagOf {name : String} {a : Attributes} {offset : Nat} {t : Tag}
    (h : tagOf name a offset = .ok t) : t.isElement = true ∧ t.isUnannotated = true := by
  unfold tagOf at h
  split at h
  · rename_i kind _
    cases given : entityOf kind a with
    | error e => simp [given, Except.map] at h
    | ok e =>
      obtain rfl : Tag.entity e = t := by simpa [given, Except.map] using h
      exact ⟨rfl, isUnannotated_of_entityOf given⟩
  · obtain rfl := Except.ok.inj h
    exact ⟨rfl, rfl⟩
  · exact isElement_of_otherOf h

end Tag

end WorldMarkup
