import Mathlib.Tactic.SplitIfs
import WorldMarkup.Proofs.Edit.Comparing
import WorldMarkup.Proofs.Tree.Routes

/-!
What one side of a comparison goes on with. Paths are matched pair by pair; after the innermost
pair one side has nothing left, and the other has the excess of a text and the paths that follow.
Main statement: what the base goes on with are the paths of a forest, which has no more nodes than
the base but for the leaves of the excess in the place of the text.
-/

set_option autoImplicit false
set_option relaxedAutoImplicit false

namespace WorldMarkup

namespace Alignment

/-! ### The leaves of an excess -/

def leafSteps (number : Nat) : List (Tag × Extra) → List (Step Tag)
  | [] => []
  | (t, e) :: rest => ⟨t, e, number⟩ :: leafSteps (number + 1) rest

theorem withLeaves_eq (q : Path Tag) (number : Nat) (leaves : List (Tag × Extra)) :
    withLeaves q number leaves = (leafSteps number leaves).map (fun l => q ++ [l]) := by
  induction leaves generalizing number with
  | nil => rfl
  | cons x leaves ih => rw [withLeaves, leafSteps, ih, List.map_cons]

theorem map_data_leafSteps (number : Nat) (leaves : List (Tag × Extra)) :
    (leafSteps number leaves).map Step.data = leaves.map Prod.fst := by
  induction leaves generalizing number with
  | nil => rfl
  | cons x leaves ih => rw [leafSteps, List.map_cons, List.map_cons, ih]

/-! ### Matching from the front -/

/-- Two lists of paths hold the same, path by path. -/
def AreAlike (as bs : List (Path Tag)) : Prop :=
  List.Forall₂ (fun a b => samePath a b = true) as bs

/-- Two lists of paths agree up to an innermost pair, and one of them ends with it. -/
structure Meeting (boundary : Boundary) (as bs front front' : List (Path Tag)) (m : Match) :
    Prop where
  alike : AreAlike front front'
  first : as = front ++ m.pair.1 :: m.firstRest
  second : bs = front' ++ m.pair.2 :: m.secondRest
  fits : m.overlap.Fits boundary m.pair.1 m.pair.2
  ends : m.firstRest = [] ∨ m.secondRest = []

theorem matchFront_eq_some {boundary : Boundary} {as bs : List (Path Tag)} {m : Match}
    (h : matchFront boundary as bs = some m) :
    (as = [] ∨ bs = []) ∧ m = { firstRest := as, secondRest := bs } ∨
      ∃ front front', Meeting boundary as bs front front' m := by
  induction as generalizing bs with
  | nil => exact .inl ⟨.inl rfl, by cases bs <;> exact (Option.some.inj h).symm⟩
  | cons a as ih =>
    cases bs with
    | nil => exact .inl ⟨.inr rfl, (Option.some.inj h).symm⟩
    | cons b bs =>
      rw [matchFront] at h
      split at h
      · rename_i last
        obtain ⟨o, ho, rfl⟩ := Option.map_eq_some_iff.1 h
        have ends : as = [] ∨ bs = [] := by simpa using last
        exact .inr ⟨[], [], .nil, rfl, rfl, overlap?_eq_some.1 ho, ends⟩
      · rename_i inner
        split at h
        · rename_i same
          rcases ih h with ⟨empty, -⟩ | ⟨front, front', alike, rfl, rfl, fits, ends⟩
          · simp [empty] at inner
          · exact .inr ⟨a :: front, b :: front', .cons same alike, rfl, rfl, fits, ends⟩
        · simp at h

/-! ### What the base goes on with -/

/-- The paths of what a pair leaves over on its first side. -/
def Overlap.paths (o : Overlap) (p : Path Tag) (side : List (Path Tag)) : List (Path Tag) :=
  match o with
  | .firstLonger x => excessPaths p x side
  | _ => []

theorem remainders?_eq_some {boundary : Boundary} {base edit b e : List (Path Tag)}
    (h : remainders? boundary base edit = some (b, e)) :
    (base = [] ∨ edit = []) ∧ b = base ∧ e = edit ∨
      ∃ front front' m,
        Meeting boundary (toward boundary base) (toward boundary edit) front front' m ∧
          b = joined boundary (m.overlap.paths m.pair.1 base) m.firstRest ∧
          e = joined boundary (m.overlap.swap.paths m.pair.2 edit) m.secondRest := by
  rw [remainders?_eq] at h
  obtain ⟨m, hm, h⟩ := Option.map_eq_some_iff.1 h
  rcases matchFront_eq_some hm with ⟨empty, rfl⟩ | ⟨front, front', meeting⟩
  · obtain ⟨rfl, rfl⟩ := Prod.mk.inj h
    refine .inl ⟨?_, ?_, ?_⟩
    · cases boundary <;> simpa [toward] using empty
    · cases boundary <;> simp [toward, joined]
    · cases boundary <;> simp [toward, joined]
  · refine .inr ⟨front, front', m, meeting, ?_⟩
    cases ho : m.overlap <;> rw [ho] at h <;> obtain ⟨rfl, rfl⟩ := Prod.mk.inj h <;> exact ⟨rfl, rfl⟩

/-- The leaves that a text leaves when its excess alone is left of it, or none. -/
def AreExcess (s : Step Tag) (side : List (Path Tag)) (leaves : List (Step Tag)) : Prop :=
  leaves = [] ∨ ∃ boundary : Boundary, ∃ value near x,
    s.data = .text value ∧ value.toList = boundary.extend near x ∧
      leaves = leafSteps (freshNumber side) (excessLeaves s.extra x)

theorem exists_leaves {boundary : Boundary} {o : Overlap} {q p : Path Tag} {s : Step Tag}
    (fits : o.Fits boundary (q ++ [s]) p) (side : List (Path Tag)) :
    ∃ leaves, AreExcess s side leaves ∧
      o.paths (q ++ [s]) side = leaves.map (fun l => q ++ [l]) := by
  cases o with
  | same => exact ⟨[], .inl rfl, rfl⟩
  | secondLonger x => exact ⟨[], .inl rfl, rfl⟩
  | firstLonger x =>
    obtain ⟨-, -, value, other, hvalue, -, hx⟩ := fits
    obtain ⟨q', e, o, eq⟩ := endText?_eq_some.1 hvalue
    obtain ⟨rfl, rfl⟩ : q = q' ∧ s = ⟨.text value, e, o⟩ := by
      obtain ⟨above, last⟩ := List.append_inj' eq rfl
      exact ⟨above, (List.cons.inj last).1⟩
    refine ⟨_, .inr ⟨boundary, value, _, x, rfl, hx, rfl⟩, ?_⟩
    rw [Overlap.paths, excessPaths, List.getLast?_concat, List.dropLast_concat, ← withLeaves_eq]

/-- What the base goes on with are the paths of a forest: the base, or what is left of it when
nodes go, with leaves of the excess in the place of one of them. -/
theorem exists_remains {boundary : Boundary} {g : Growth Tag} {edit b e : List (Path Tag)}
    (h : remainders? boundary (Forest.routes g) edit = some (b, e)) :
    ∃ g', Forest.routes g' = b ∧ (g' = g ∨ ∃ s leaves, AreExcess s (Forest.routes g) leaves ∧
      ∀ w : Tag × Nat → Nat, Forest.total w g' + w (s.data, s.origin) ≤
        Forest.total w g + (leaves.map (fun l => w (l.data, l.origin))).sum) := by
  rcases remainders?_eq_some h with ⟨-, rfl, -⟩ | ⟨front, front', m, meeting, rfl, -⟩
  · exact ⟨g, rfl, .inl rfl⟩
  have inside : m.pair.1 ∈ Forest.routes g := by
    have : m.pair.1 ∈ toward boundary (Forest.routes g) := by simp [meeting.first]
    exact mem_toward.1 this
  obtain ⟨q, s, hpair⟩ : ∃ q s, m.pair.1 = q ++ [s] := by
    rcases List.eq_nil_or_concat m.pair.1 with none | ⟨q, s, hpair⟩
    · exact absurd (none ▸ inside) (Forest.nil_notMem_routes g)
    · exact ⟨q, s, by simpa using hpair⟩
  have fits := meeting.fits
  have first := meeting.first
  rw [hpair] at fits first ⊢
  obtain ⟨leaves, excess, paths⟩ := exists_leaves fits (Forest.routes g)
  rw [paths]
  cases boundary with
  | start =>
    obtain ⟨g', routes', total'⟩ := Forest.exists_routes_drop first leaves
    exact ⟨g', routes', .inr ⟨s, leaves, excess, total'⟩⟩
  | finish =>
    have turned : Forest.routes g = m.firstRest.reverse ++ (q ++ [s]) :: front.reverse := by
      have := congrArg List.reverse first
      simpa [toward] using this
    obtain ⟨g', routes', total'⟩ := Forest.exists_routes_take turned leaves
    exact ⟨g', routes', .inr ⟨s, leaves, excess, total'⟩⟩

theorem sum_bears_leafSteps (k number : Nat) (leaves : List (Tag × Extra)) :
    ((leafSteps number leaves).map (fun l => Forest.bears k (l.data, l.origin))).sum =
      if number ≤ k ∧ k < number + leaves.length then 1 else 0 := by
  induction leaves generalizing number with
  | nil =>
    rw [leafSteps, List.map_nil, List.sum_nil, List.length_nil]
    split_ifs <;> omega
  | cons x leaves ih =>
    rw [leafSteps, List.map_cons, List.sum_cons, ih, Forest.bears, List.length_cons]
    dsimp only
    split_ifs <;> omega

theorem exists_remains_once {boundary : Boundary} {base : Forest Tag} {edit b e : List (Path Tag)}
    (h : remainders? boundary (Forest.paths base) edit = some (b, e)) :
    ∃ g, Forest.routes g = b ∧ ∀ k, Forest.total (Forest.bears k) g ≤ 1 := by
  have paths : Forest.routes (Forest.numbered 0 base) = Forest.paths base :=
    Forest.routes_numbered 0 base
  have once (k : Nat) : Forest.total (Forest.bears k) (Forest.numbered 0 base) ≤ 1 := by
    rw [Forest.total_bears_numbered]
    split_ifs <;> omega
  rw [← paths] at h
  obtain ⟨g, hg, rfl | ⟨s, leaves, excess, total⟩⟩ := exists_remains h
  · exact ⟨_, hg, once⟩
  refine ⟨g, hg, fun k => ?_⟩
  have whole := total (Forest.bears k)
  have := once k
  rcases excess with rfl | ⟨boundary', value, near, x, -, -, rfl⟩
  · simp only [List.map_nil, List.sum_nil] at whole
    omega
  rw [sum_bears_leafSteps] at whole
  by_cases old : k < freshNumber (Forest.routes (Forest.numbered 0 base))
  · rw [if_neg (by omega)] at whole
    omega
  · have unused : Forest.total (Forest.bears k) (Forest.numbered 0 base) = 0 := by
      refine Forest.total_eq_zero fun p hp s hs => ?_
      have := lt_freshNumber (List.mem_flatten.2 ⟨p, hp, hs⟩)
      rw [Forest.bears, if_neg (by omega)]
    split_ifs at whole <;> omega

/-! ### Comparing at a boundary -/

theorem compareAt?_eq_ok {boundary : Boundary} {base edit : List (Path Tag)} {c : Comparison} :
    compareAt? boundary base edit = some (.ok c) ↔
      ∃ b e, remainders? boundary base edit = some (b, e) ∧
        (b = [] ∧ e = [] ∧ c = .equal ∨
          b ≠ [] ∧ e = [] ∧ (∃ r, regrow b = .ok r ∧ c = .baseLonger r boundary) ∨
          b = [] ∧ e ≠ [] ∧ ∃ r, regrow e = .ok r ∧ c = .editLonger r boundary) := by
  rw [compareAt?]
  rcases remainders? boundary base edit with _ | ⟨b, e⟩
  · simp
  · have map_ok (paths : List (Path Tag)) (tell : Forest Tag → Comparison) :
        (regrow paths).map tell = .ok c ↔ ∃ r, regrow paths = .ok r ∧ c = tell r := by
      cases regrow paths <;> simp [Except.map, eq_comm]
    rcases b with _ | ⟨p, b⟩ <;> rcases e with _ | ⟨p', e⟩
    · simp [eq_comm]
    · simp [map_ok]
    · simp [map_ok]
    · simp

end Alignment

open WorldMarkup.Alignment

/-- What is found of two sides is found at one of the boundaries, unless they conflict. -/
theorem compareEdits_found {base edit : Forest Tag} {c : Comparison}
    (h : compareEdits base edit = .ok c) (agree : c ≠ .conflict) :
    ∃ boundary, compareAt? boundary (Forest.paths base) (Forest.paths edit) = some (.ok c) := by
  obtain ⟨p, q, hp, hq, h⟩ := compareEdits_eq_ok.1 h
  obtain ⟨-, rfl⟩ := Forest.worldPaths_eq hp
  obtain ⟨-, rfl⟩ := Forest.worldPaths_eq hq
  cases hstart : compareAt? .start (Forest.paths base) (Forest.paths edit) with
  | some x =>
    obtain rfl : x = .ok c := by simpa [hstart] using h
    exact ⟨.start, hstart⟩
  | none =>
    cases hfinish : compareAt? .finish (Forest.paths base) (Forest.paths edit) with
    | some x =>
      obtain rfl : x = .ok c := by simpa [hstart, hfinish] using h
      exact ⟨.finish, hfinish⟩
    | none =>
      obtain rfl : .conflict = c := by simpa [hstart, hfinish] using h
      exact absurd rfl agree

theorem remainders_of_equal {base edit : Forest Tag} (h : compareEdits base edit = .ok .equal) :
    ∃ boundary, remainders? boundary (Forest.paths base) (Forest.paths edit) = some ([], []) := by
  obtain ⟨boundary, h⟩ := compareEdits_found h (by simp)
  obtain ⟨b, e, rem, ⟨rfl, rfl, -⟩ | ⟨-, -, r, -, hr⟩ | ⟨-, -, r, -, hr⟩⟩ := compareAt?_eq_ok.1 h
  · exact ⟨boundary, rem⟩
  · simp at hr
  · simp at hr

theorem remainders_of_baseLonger {base edit r : Forest Tag} {boundary : Boundary}
    (h : compareEdits base edit = .ok (.baseLonger r boundary)) :
    ∃ b, remainders? boundary (Forest.paths base) (Forest.paths edit) = some (b, []) ∧
      regrow b = .ok r := by
  obtain ⟨found, h⟩ := compareEdits_found h (by simp)
  obtain ⟨b, e, rem, ⟨-, -, hr⟩ | ⟨-, rfl, r', grown, hr⟩ | ⟨-, -, r', -, hr⟩⟩ :=
    compareAt?_eq_ok.1 h
  · simp at hr
  · obtain ⟨rfl, rfl⟩ := Comparison.baseLonger.inj hr
    exact ⟨b, rem, grown⟩
  · simp at hr

end WorldMarkup
