import WorldMarkup.Proofs.Form.Editing

/-!
Comparing two sides, and comparing them the other way round. A text goes on beyond another at an
end when it is the other with something more there; two texts that go on beyond each other are
one, so no pair of paths is left over on both sides. Main statement: comparing with the sides
exchanged gives the same remainder at the same end, now of the other side, and fails when
comparing does.
-/

set_option autoImplicit false
set_option relaxedAutoImplicit false

namespace WorldMarkup

/-- What is matched at a boundary, and what goes on beyond it. -/
def Boundary.extend {α : Type} (boundary : Boundary) (near beyond : List α) : List α :=
  match boundary with
  | .start => near ++ beyond
  | .finish => beyond ++ near

@[simp] theorem Boundary.extend_start {α : Type} (near beyond : List α) :
    Boundary.start.extend near beyond = near ++ beyond := rfl

@[simp] theorem Boundary.extend_finish {α : Type} (near beyond : List α) :
    Boundary.finish.extend near beyond = beyond ++ near := rfl

@[simp] theorem Boundary.extend_nil {α : Type} (boundary : Boundary) (near : List α) :
    boundary.extend near [] = near := by
  cases boundary <;> simp

/-- The comparison of the same sides, told with the sides exchanged. -/
def Comparison.swap : Comparison → Comparison
  | .equal => .equal
  | .baseLonger r boundary => .editLonger r boundary
  | .editLonger r boundary => .baseLonger r boundary
  | .conflict => .conflict

@[simp] theorem Comparison.swap_swap (c : Comparison) : c.swap.swap = c := by
  cases c <;> rfl

namespace Alignment

/-! ### Texts -/

theorem leftOver?_eq_some {long short x : List Char} :
    leftOver? long short = some x ↔ long = short ++ x := by
  induction short generalizing long with
  | nil => cases long <;> simp [leftOver?]
  | cons d short ih =>
    cases long with
    | nil => simp [leftOver?]
    | cons c long =>
      rw [leftOver?]
      by_cases h : c = d
      · simp [h, ih]
      · simp [h]

theorem excess?_eq_some {boundary : Boundary} {long short x : List Char} :
    excess? boundary long short = some x ↔ long = boundary.extend short x := by
  cases boundary with
  | start => exact leftOver?_eq_some
  | finish =>
    simp only [excess?, Option.map_eq_some_iff, leftOver?_eq_some, Boundary.extend]
    constructor
    · rintro ⟨y, h, rfl⟩
      simpa using congrArg List.reverse h
    · rintro rfl
      exact ⟨x.reverse, by simp, by simp⟩

theorem eq_of_excess? {boundary : Boundary} {s t x y : List Char}
    (hs : excess? boundary s t = some x) (ht : excess? boundary t s = some y) : s = t := by
  rw [excess?_eq_some] at hs ht
  have lengths : s.length = t.length := by
    have hs := congrArg List.length hs
    have ht := congrArg List.length ht
    cases boundary <;> simp only [Boundary.extend, List.length_append] at hs ht <;> omega
  have none : x = [] := by
    rw [hs] at lengths
    cases boundary <;> simpa [Boundary.extend] using lengths
  subst none
  cases boundary <;> simpa [Boundary.extend] using hs

/-! ### Paths -/

theorem samePath_eq_true {a b : Path Tag} :
    samePath a b = true ↔ a.map Step.data = b.map Step.data := by
  simp [samePath]

theorem samePath_comm (a b : Path Tag) : samePath a b = samePath b a := by
  rw [Bool.eq_iff_iff, samePath_eq_true, samePath_eq_true]
  exact eq_comm

def endText? (p : Path Tag) : Option String := p.getLast?.bind (fun s => s.data.text?)

theorem endText?_eq_some {p : Path Tag} {value : String} :
    endText? p = some value ↔ ∃ q e o, p = q ++ [⟨.text value, e, o⟩] := by
  constructor
  · intro h
    obtain ⟨⟨d, e, o⟩, last, text⟩ := Option.bind_eq_some_iff.1 h
    obtain rfl : d = .text value := by
      cases d <;> simp only [Tag.text?, Option.some.injEq, reduceCtorEq] at text
      rw [text]
    exact ⟨p.dropLast, e, o, (List.dropLast_append_getLast? _ last).symm⟩
  · rintro ⟨q, e, o, rfl⟩
    rw [endText?, List.getLast?_concat]
    rfl

theorem samePath_of_endText? {a b : Path Tag} {value : String}
    (above : samePath a.dropLast b.dropLast = true) (ha : endText? a = some value)
    (hb : endText? b = some value) : samePath a b = true := by
  obtain ⟨p, e, o, rfl⟩ := endText?_eq_some.1 ha
  obtain ⟨q, e', o', rfl⟩ := endText?_eq_some.1 hb
  rw [samePath_eq_true] at above ⊢
  simpa using above

/-- The first path goes on beyond the second with the excess of the text at its end. -/
structure GoesBeyond (boundary : Boundary) (a b : Path Tag) (x : List Char) : Prop where
  differ : samePath a b = false
  above : samePath a.dropLast b.dropLast = true
  texts : ∃ s t, endText? a = some s ∧ endText? b = some t ∧
    s.toList = boundary.extend t.toList x

/-- What is left of a pair of paths says how they go on beyond each other. -/
def Overlap.Fits (boundary : Boundary) (a b : Path Tag) : Overlap → Prop
  | .same => samePath a b = true
  | .firstLonger x => GoesBeyond boundary a b x
  | .secondLonger x => GoesBeyond boundary b a x

theorem overlap?_eq_some {boundary : Boundary} {a b : Path Tag} {o : Overlap} :
    overlap? boundary a b = some o ↔ o.Fits boundary a b := by
  constructor
  · intro h
    rw [overlap?] at h
    cases same : samePath a b with
    | true =>
      rw [same, if_pos rfl, Option.some.injEq] at h
      rw [← h]
      exact same
    | false =>
      rw [same, if_neg (by simp)] at h
      split at h
      · rename_i above
        split at h
        · rename_i s t hs ht
          rcases Option.or_eq_some_iff.1 h with h | ⟨-, h⟩
          · obtain ⟨x, hx, rfl⟩ := Option.map_eq_some_iff.1 h
            exact ⟨same, above, s, t, hs, ht, excess?_eq_some.1 hx⟩
          · obtain ⟨x, hx, rfl⟩ := Option.map_eq_some_iff.1 h
            rw [samePath_comm] at same above
            exact ⟨same, above, t, s, ht, hs, excess?_eq_some.1 hx⟩
        · simp at h
      · simp at h
  · intro h
    rw [overlap?]
    cases o with
    | same => exact if_pos h
    | firstLonger x =>
      obtain ⟨same, above, s, t, hs, ht, hx⟩ := h
      rw [endText?] at hs ht
      simp [same, above, hs, ht, excess?_eq_some.2 hx]
    | secondLonger x =>
      obtain ⟨same, above, t, s, ht, hs, hx⟩ := h
      have stuck : excess? boundary s.toList t.toList = none := by
        refine Option.eq_none_iff_forall_ne_some.2 fun y hy => ?_
        obtain rfl := String.toList_inj.1 (eq_of_excess? hy (excess?_eq_some.2 hx))
        simp [samePath_of_endText? above ht hs] at same
      rw [samePath_comm] at same above
      rw [endText?] at hs ht
      simp [same, above, hs, ht, stuck, excess?_eq_some.2 hx]

/-- What is left of a pair, told with the sides exchanged. -/
def Overlap.swap : Overlap → Overlap
  | .same => .same
  | .firstLonger x => .secondLonger x
  | .secondLonger x => .firstLonger x

theorem Overlap.fits_swap {boundary : Boundary} {a b : Path Tag} {o : Overlap} :
    o.swap.Fits boundary b a ↔ o.Fits boundary a b := by
  cases o with
  | same => exact iff_of_eq (congrArg (· = true) (samePath_comm b a))
  | firstLonger x => exact Iff.rfl
  | secondLonger x => exact Iff.rfl

theorem overlap?_swap (boundary : Boundary) (a b : Path Tag) :
    overlap? boundary b a = (overlap? boundary a b).map Overlap.swap := by
  cases h : overlap? boundary a b with
  | some o => exact overlap?_eq_some.2 (Overlap.fits_swap.2 (overlap?_eq_some.1 h))
  | none =>
    refine Option.eq_none_iff_forall_ne_some.2 fun o ho => ?_
    rw [overlap?_eq_some.2 (Overlap.fits_swap.2 (overlap?_eq_some.1 ho))] at h
    simp at h

/-! ### Lists of paths -/

def Match.swap (m : Match) : Match := ⟨m.overlap.swap, m.pair.swap, m.secondRest, m.firstRest⟩

theorem matchFront_swap (boundary : Boundary) (as bs : List (Path Tag)) :
    matchFront boundary bs as = (matchFront boundary as bs).map Match.swap := by
  induction as generalizing bs with
  | nil => cases bs <;> rfl
  | cons a as ih =>
    cases bs with
    | nil => rfl
    | cons b bs =>
      rw [matchFront, matchFront, Bool.or_comm, samePath_comm b a, overlap?_swap, ih]
      split
      · simp only [Option.map_map]
        rfl
      · split <;> rfl

theorem remainders?_swap (boundary : Boundary) (base edit : List (Path Tag)) :
    remainders? boundary edit base = (remainders? boundary base edit).map Prod.swap := by
  rw [remainders?_eq, remainders?_eq, matchFront_swap, Option.map_map, Option.map_map]
  congr 1
  ext ⟨o, pair, first, second⟩ : 1
  cases o <;> rfl

theorem compareAt?_swap (boundary : Boundary) (base edit : List (Path Tag)) :
    compareAt? boundary edit base =
      (compareAt? boundary base edit).map (Except.map Comparison.swap) := by
  rw [compareAt?, compareAt?, remainders?_swap]
  rcases remainders? boundary base edit with _ | ⟨b, e⟩
  · rfl
  · have flip (paths : List (Path Tag)) (tell told : Forest Tag → Comparison)
        (h : ∀ r, (tell r).swap = told r) :
        (regrow paths).map told = ((regrow paths).map tell).map Comparison.swap := by
      cases regrow paths with
      | ok r => exact congrArg Except.ok (h r).symm
      | error => rfl
    rw [Option.map_some]
    dsimp only [Prod.swap]
    cases b.isEmpty <;> cases e.isEmpty
    · rfl
    · exact congrArg some (flip b _ _ fun _ => rfl)
    · exact congrArg some (flip e _ _ fun _ => rfl)
    · rfl

end Alignment

/-! ### Forests -/

theorem compareEdits_eq_ok {a b : Forest Tag} {c : Comparison} :
    compareEdits a b = .ok c ↔
      ∃ p q, Forest.worldPaths a = .ok p ∧ Forest.worldPaths b = .ok q ∧
        ((Alignment.compareAt? .start p q).or (Alignment.compareAt? .finish p q)).getD
          (.ok .conflict) = .ok c := by
  rw [compareEdits, Except.bind_eq_ok]
  simp only [Except.bind_eq_ok, exists_and_left]

theorem compareEdits_ok_swap {a b : Forest Tag} {c : Comparison} (h : compareEdits a b = .ok c) :
    compareEdits b a = .ok c.swap := by
  obtain ⟨p, q, hp, hq, h⟩ := compareEdits_eq_ok.1 h
  refine compareEdits_eq_ok.2 ⟨q, p, hq, hp, ?_⟩
  rw [Alignment.compareAt?_swap .start p q, Alignment.compareAt?_swap .finish p q]
  rw [← Option.map_or]
  change (Option.map _ _).getD (Except.map Comparison.swap (.ok .conflict)) = _
  rw [Option.getD_map, h]
  rfl

/-- Comparing is symmetric: it fails on both sides or on neither, and what it finds is told with
the sides exchanged. -/
theorem compareEdits_swap (a b : Forest Tag) :
    ((∃ e, compareEdits a b = .error e) ↔ ∃ e, compareEdits b a = .error e) ∧
      ∀ c, compareEdits a b = .ok c ↔ compareEdits b a = .ok c.swap := by
  have both (c : Comparison) : compareEdits a b = .ok c ↔ compareEdits b a = .ok c.swap := by
    refine ⟨compareEdits_ok_swap, fun h => ?_⟩
    rw [← c.swap_swap]
    exact compareEdits_ok_swap h
  refine ⟨?_, both⟩
  cases h : compareEdits a b with
  | ok c => simp [(both c).1 h]
  | error e =>
    cases h' : compareEdits b a with
    | ok c => simp [compareEdits_ok_swap h'] at h
    | error e' => simp

end WorldMarkup
