import WorldMarkup.Proofs.Tree.Lineage

/-!
Branches in need, and what stands in for them. A branch of a wrapper on a wanted path is in need
when no wanted path takes it. Main statements: the first path through such a branch stands in for
it, cut below the branch where that is no wrapper itself, and what a filter keeps rises in number.
-/

set_option autoImplicit false
set_option relaxedAutoImplicit false

namespace WorldMarkup

variable {α κ : Type}

namespace Path

/-! ### Branches in need -/

section Need

variable {isWrapper : α → Bool} {wanted : Path α → Bool} {paths : List (Path α)} {w b : Step α}

/-- A wanted path passes through the wrapper `w`, and none through the node `b` right below it. -/
structure InNeed (isWrapper : α → Bool) (wanted : Path α → Bool) (paths : List (Path α))
    (w b : Step α) : Prop where
  wrapper : isWrapper w.data = true
  live : ∃ p ∈ paths, wanted p = true ∧ w ∈ p
  below : ∃ p ∈ paths, [w, b] <:+: p
  dropped : ∀ p ∈ paths, wanted p = true → b ∉ p

/-- What stands in for the branch `b` of `w` on the path `p`: the path cut right below the branch,
or the whole path when the branch is itself a wrapper. -/
def StandsIn (isWrapper : α → Bool) (w b : Step α) (p q : Path α) : Prop :=
  ∃ above below, p = above ++ w :: b :: below ∧
    q = if isWrapper b.data then p else above ++ [w, b]

theorem IsLineage.eq_of_append (h : IsLineage isWrapper paths) {p q x y x' y' : Path α}
    {s : Step α} (hp : p ∈ paths) (hq : q ∈ paths) (hps : p = x ++ s :: y)
    (hqs : q = x' ++ s :: y') : x = x' := by
  subst hps hqs
  exact (h.agree hp hq rfl).1

/-- A path takes one way through each branch in need: no other one stands on it. -/
theorem IsLineage.unique_need (h : IsLineage isWrapper paths) {p x y x' y' : Path α}
    {w' b' : Step α} (hp : p ∈ paths) (need : InNeed isWrapper wanted paths w b)
    (need' : InNeed isWrapper wanted paths w' b') (hpb : p = x ++ w :: b :: y)
    (hpb' : p = x' ++ w' :: b' :: y') : x = x' ∧ w = w' ∧ b = b' := by
  -- the branch of the upper wrapper would lie on the wanted path through the lower one
  have notAbove {x y x' y' : Path α} {w b w' b' : Step α}
      (need : InNeed isWrapper wanted paths w b) (need' : InNeed isWrapper wanted paths w' b')
      (hpb : p = x ++ w :: b :: y) (hpb' : p = x' ++ w' :: b' :: y') :
      ¬ x.length < x'.length := by
    intro upper
    obtain ⟨m, hm, hwanted, hw⟩ := need'.live
    obtain ⟨z, z', hmz⟩ := List.append_of_mem hw
    have hz : x' = z := h.eq_of_append hp hm hpb' hmz
    have hb : b ∈ x' ++ [w'] := by
      have split : (x ++ [w]) ++ b :: y = (x' ++ [w']) ++ b' :: y' := by
        rw [List.append_assoc, List.append_assoc]
        exact hpb.symm.trans hpb'
      have at' : ((x' ++ [w']) ++ b' :: y')[x.length + 1]? = some b := by
        rw [← split, List.getElem?_append_right (by simp)]
        simp
      rw [List.getElem?_append_left (by simp; omega)] at at'
      exact List.mem_of_getElem? at'
    apply need.dropped m hm hwanted
    rw [hmz, ← hz]
    rcases List.mem_append.1 hb with hb | hb
    · exact List.mem_append_left _ hb
    · obtain rfl := List.mem_singleton.1 hb
      simp
  have lengths : x.length = x'.length := by
    have := notAbove need need' hpb hpb'
    have := notAbove need' need hpb' hpb
    omega
  obtain ⟨above, below⟩ := List.append_inj (hpb.symm.trans hpb') lengths
  obtain ⟨wrappers, below⟩ := List.cons.inj below
  exact ⟨above, wrappers, (List.cons.inj below).1⟩

theorem InNeed.split (need : InNeed isWrapper wanted paths w b) (h : IsLineage isWrapper paths)
    {p : Path α} (hp : p ∈ paths) (hb : b ∈ p) : ∃ x y, p = x ++ w :: b :: y := by
  obtain ⟨m, hm, x, y, rfl⟩ := need.below
  obtain ⟨x', y', rfl⟩ := List.append_of_mem hb
  have hx : x ++ [w] = x' :=
    h.eq_of_append hm hp (s := b) (y := y) (by simp) rfl
  exact ⟨x, y', by simp [← hx]⟩

end Need

/-! ### Standing in -/

section StandIns

variable {isWrapper : α → Bool} {wanted : Path α → Bool} {paths : List (Path α)}
variable {ws bs placed : List Nat}

theorem mem_wrappers {p : Path α} {n : Nat} :
    n ∈ (wrappersAndBranches isWrapper p).1 ↔
      ∃ s ∈ p, isWrapper s.data = true ∧ s.origin = n := by
  induction p with
  | nil => simp [wrappersAndBranches]
  | cons s rest ih =>
    rw [wrappersAndBranches]
    cases hs : isWrapper s.data with
    | false => simp [hs, ih]
    | true => simp [hs, ih, eq_comm (a := n)]

theorem mem_branches {p : Path α} {n : Nat} :
    n ∈ (wrappersAndBranches isWrapper p).2 ↔
      ∃ x w b y, p = x ++ w :: b :: y ∧ isWrapper w.data = true ∧ b.origin = n := by
  induction p with
  | nil => simp [wrappersAndBranches]
  | cons s rest ih =>
    have step : (∃ x w b y, s :: rest = x ++ w :: b :: y ∧ isWrapper w.data = true ∧
        b.origin = n) ↔ (isWrapper s.data = true ∧ ∃ b y, rest = b :: y ∧ b.origin = n) ∨
          ∃ x w b y, rest = x ++ w :: b :: y ∧ isWrapper w.data = true ∧ b.origin = n := by
      constructor
      · rintro ⟨x, w, b, y, hp, hw, hb⟩
        cases x with
        | nil =>
          obtain ⟨rfl, rfl⟩ := List.cons.inj hp
          exact .inl ⟨hw, b, y, rfl, hb⟩
        | cons c x => exact .inr ⟨x, w, b, y, (List.cons.inj hp).2, hw, hb⟩
      · rintro (⟨hw, b, y, rfl, hb⟩ | ⟨x, w, b, y, rfl, hw, hb⟩)
        · exact ⟨[], s, b, y, rfl, hw, hb⟩
        · exact ⟨s :: x, w, b, y, rfl, hw, hb⟩
    rw [wrappersAndBranches, step, ← ih]
    cases hs : isWrapper s.data with
    | false => simp
    | true => cases rest <;> simp [eq_comm (a := n)]

theorem standIn?_cons (s : Step α) (rest : Path α) :
    standIn? isWrapper ws bs (s :: rest) =
      if isWrapper s.data && ws.contains s.origin then
        match rest with
        | [] => none
        | b :: _ =>
          if bs.contains b.origin then
            (standIn? isWrapper ws bs rest).map (fun (n, p) => (n, s :: p))
          else some (b.origin, s :: (if isWrapper b.data then rest else [b]))
      else (standIn? isWrapper ws bs rest).map (fun (n, p) => (n, s :: p)) := by
  cases rest <;> rfl

theorem standIn?_eq_some {p q : Path α} {n : Nat}
    (h : standIn? isWrapper ws bs p = some (n, q)) :
    ∃ w b, isWrapper w.data = true ∧ w.origin ∈ ws ∧ b.origin ∉ bs ∧ n = b.origin ∧
      StandsIn isWrapper w b p q := by
  induction p generalizing n q with
  | nil => simp [standIn?] at h
  | cons s rest ih =>
    have deeper (h : (standIn? isWrapper ws bs rest).map (fun (m, p) => (m, s :: p)) = some (n, q)) :
        ∃ w b, isWrapper w.data = true ∧ w.origin ∈ ws ∧ b.origin ∉ bs ∧ n = b.origin ∧
          StandsIn isWrapper w b (s :: rest) q := by
      obtain ⟨⟨m, q'⟩, found, same⟩ := Option.map_eq_some_iff.1 h
      obtain ⟨rfl, rfl⟩ := Prod.mk.inj same
      obtain ⟨w, b, hw, live, needed, number, above, below, rfl, rfl⟩ := ih found
      refine ⟨w, b, hw, live, needed, number, s :: above, below, rfl, ?_⟩
      split <;> simp
    rw [standIn?_cons] at h
    split at h
    · rename_i live
      simp only [Bool.and_eq_true, List.contains_iff_mem] at live
      cases rest with
      | nil => simp at h
      | cons b below =>
        simp only at h
        split at h
        · exact deeper h
        · rename_i needed
          obtain ⟨rfl, rfl⟩ := Prod.mk.inj (Option.some.inj h)
          refine ⟨s, b, live.1, live.2, by simpa using needed, rfl, [], below, rfl, ?_⟩
          split <;> simp
    · exact deeper h

theorem standIn?_isSome {x y : Path α} {w b : Step α} (wrapper : isWrapper w.data = true)
    (live : w.origin ∈ ws) (needed : b.origin ∉ bs) :
    (standIn? isWrapper ws bs (x ++ w :: b :: y)).isSome = true := by
  induction x with
  | nil => simp [standIn?, wrapper, live, needed]
  | cons s x ih =>
    have below : ∃ c z, x ++ w :: b :: y = c :: z := by cases x <;> simp
    obtain ⟨c, z, hz⟩ := below
    rw [hz] at ih
    rw [List.cons_append, standIn?_cons, hz]
    split
    · simp only
      split
      · simpa using ih
      · rfl
    · simpa using ih

theorem StandsIn.shortens {w b : Step α} {p q : Path α} (h : StandsIn isWrapper w b p q) :
    q <+: p := by
  obtain ⟨above, below, rfl, rfl⟩ := h
  split
  · exact List.prefix_refl _
  · exact ⟨below, by simp⟩

theorem StandsIn.mem {w b : Step α} {p q : Path α} (h : StandsIn isWrapper w b p q) :
    [w, b] <:+: q := by
  obtain ⟨above, below, rfl, rfl⟩ := h
  split
  · exact ⟨above, below, by simp⟩
  · exact ⟨above, [], by simp⟩

theorem mem_keepOrStandIn {ps : List (Path α)} {q : Path α}
    (h : q ∈ keepOrStandIn isWrapper ws bs wanted placed ps) :
    (q ∈ ps ∧ wanted q = true) ∨
      ∃ p ∈ ps, wanted p = false ∧ ∃ n, standIn? isWrapper ws bs p = some (n, q) ∧ n ∉ placed := by
  have later {p : Path α} {ps : List (Path α)} {placed placed' : List Nat}
      (sub : ∀ n ∈ placed, n ∈ placed') (h : (q ∈ ps ∧ wanted q = true) ∨
        ∃ p ∈ ps, wanted p = false ∧
          ∃ n, standIn? isWrapper ws bs p = some (n, q) ∧ n ∉ placed') :
      (q ∈ p :: ps ∧ wanted q = true) ∨ ∃ p' ∈ p :: ps, wanted p' = false ∧
        ∃ n, standIn? isWrapper ws bs p' = some (n, q) ∧ n ∉ placed := by
    rcases h with ⟨hq, hw⟩ | ⟨p', hp', hw, n, hn, fresh⟩
    · exact .inl ⟨List.mem_cons_of_mem _ hq, hw⟩
    · exact .inr ⟨p', List.mem_cons_of_mem _ hp', hw, n, hn, fun h => fresh (sub n h)⟩
  induction ps generalizing placed with
  | nil => simp [keepOrStandIn] at h
  | cons p ps ih =>
    rw [keepOrStandIn] at h
    split at h
    · rename_i hp
      rcases List.mem_cons.1 h with rfl | h
      · exact .inl ⟨by simp, hp⟩
      · exact later (fun _ => id) (ih h)
    · rename_i hp
      split at h
      · exact later (fun _ => id) (ih h)
      · rename_i n q' found
        split at h
        · exact later (fun _ => id) (ih h)
        · rename_i fresh
          rcases List.mem_cons.1 h with rfl | h
          · exact .inr ⟨p, by simp, by simpa using hp, n, found, by simpa using fresh⟩
          · exact later (fun m hm => List.mem_cons_of_mem _ hm) (ih h)

theorem sublist_keepOrStandIn (ps : List (Path α)) :
    (ps.filter wanted).Sublist (keepOrStandIn isWrapper ws bs wanted placed ps) := by
  induction ps generalizing placed with
  | nil => simp [keepOrStandIn]
  | cons p ps ih =>
    rw [keepOrStandIn]
    split
    · rename_i hp
      rw [List.filter_cons_of_pos hp]
      exact ih.cons_cons p
    · rename_i hp
      rw [List.filter_cons_of_neg hp]
      split
      · exact ih
      · split
        · exact ih
        · exact ih.cons _

theorem exists_mem_keepOrStandIn {ps : List (Path α)} {p q : Path α} {n : Nat} (hp : p ∈ ps)
    (unwanted : wanted p = false) (found : standIn? isWrapper ws bs p = some (n, q))
    (fresh : n ∉ placed) :
    ∃ q' ∈ keepOrStandIn isWrapper ws bs wanted placed ps,
      ∃ p' ∈ ps, standIn? isWrapper ws bs p' = some (n, q') := by
  induction ps generalizing placed with
  | nil => simp at hp
  | cons p₀ ps ih =>
    have goOn {placed' : List Nat} (hp : p ∈ ps) (fresh : n ∉ placed') :
        ∃ q' ∈ keepOrStandIn isWrapper ws bs wanted placed' ps,
          ∃ p' ∈ p₀ :: ps, standIn? isWrapper ws bs p' = some (n, q') := by
      obtain ⟨q', hq', p', hp', h⟩ := ih hp fresh
      exact ⟨q', hq', p', List.mem_cons_of_mem _ hp', h⟩
    rw [keepOrStandIn]
    rcases List.mem_cons.1 hp with rfl | hp
    · have free : placed.contains n = false := by simpa using fresh
      simp only [unwanted, found, free, Bool.false_eq_true, if_false]
      exact ⟨q, by simp, p, by simp, found⟩
    · split
      · obtain ⟨q', hq', h⟩ := goOn hp fresh
        exact ⟨q', List.mem_cons_of_mem _ hq', h⟩
      · split
        · exact goOn hp fresh
        · rename_i m q₀ found₀
          split
          · exact goOn hp fresh
          · by_cases same : n = m
            · subst same
              exact ⟨q₀, by simp, p₀, by simp, found₀⟩
            · have fresh' : n ∉ m :: placed := by simp [same, fresh]
              obtain ⟨q', hq', h⟩ := goOn hp fresh'
              exact ⟨q', List.mem_cons_of_mem _ hq', h⟩

theorem exists_longer_of_mem {ps : List (Path α)} {q : Path α}
    (h : q ∈ keepOrStandIn isWrapper ws bs wanted placed ps) : ∃ p ∈ ps, q <+: p := by
  rcases mem_keepOrStandIn h with ⟨hq, -⟩ | ⟨p, hp, -, n, found, -⟩
  · exact ⟨q, hq, List.prefix_refl q⟩
  · obtain ⟨w, b, -, -, -, -, stands⟩ := standIn?_eq_some found
    exact ⟨p, hp, stands.shortens⟩

theorem rises_keepOrStandIn {ps : List (Path α)} (h : ps.Pairwise Rises) :
    (keepOrStandIn isWrapper ws bs wanted placed ps).Pairwise Rises := by
  have cons {p q : Path α} {ps : List (Path α)} {placed : List Nat} (hq : q <+: p)
      (next : ∀ p' ∈ ps, Rises p p')
      (rest : (keepOrStandIn isWrapper ws bs wanted placed ps).Pairwise Rises) :
      (q :: keepOrStandIn isWrapper ws bs wanted placed ps).Pairwise Rises := by
    apply List.pairwise_cons.2 ⟨?_, rest⟩
    intro q' hq'
    obtain ⟨p', hp', short⟩ := exists_longer_of_mem hq'
    exact (next p' hp').shorten hq short
  induction ps generalizing placed with
  | nil => simp [keepOrStandIn]
  | cons p ps ih =>
    obtain ⟨next, later⟩ := List.pairwise_cons.1 h
    rw [keepOrStandIn]
    split
    · exact cons (List.prefix_refl p) next (ih later)
    · split
      · exact ih later
      · rename_i found
        obtain ⟨w, b, -, -, -, -, stands⟩ := standIn?_eq_some found
        split
        · exact ih later
        · exact cons stands.shortens next (ih later)

end StandIns

end Path

end WorldMarkup
