import WorldMarkup.World.Identity

/-!
Laying paths into a forest that grows. A step meets a sibling, its twin or one that counts as the
same, or stands as a new one. Main statements: paths that start with one step all go below one
node, so laying them in is laying their rests in below it.
-/

set_option autoImplicit false
set_option relaxedAutoImplicit false

namespace WorldMarkup

namespace Rules

variable {α κ : Type} [DecidableEq κ]

/-- Whether both have a rank, and the rank of `d` comes before that of `x`. -/
def ranksBelow (r : Rules α κ) (d x : α) : Bool :=
  match r.rank? (r.category d), r.rank? (r.category x) with
  | some k, some j => decide (k < j)
  | _, _ => false

/-- Whether `d` ranks before the last of the siblings, which are told from the last to the
first. -/
def outranked (r : Rules α κ) (d : α) (backward : List α) : Bool :=
  backward.head?.any (r.ranksBelow d)

end Rules

namespace Growth

section Meeting

variable {α κ : Type} [DecidableEq κ]
variable {r : Rules α κ} {s x : Step α} {later earlier : List (Step α)}

def insertAll (r : Rules α κ) (paths : List (Path α)) (g : Growth α) : Growth α :=
  paths.foldl (fun g p => insert r p g) g

def joins (r : Rules α κ) (s x : Step α) : Bool :=
  !r.isWrapper s.data && !r.isWrapper x.data && r.same x.data s.data

def passes (r : Rules α κ) (s x : Step α) : Bool :=
  !joins r s x && r.independent (r.category x.data) (r.category s.data)

/-- The step joins the sibling `x`; the siblings are told from the last to the first. -/
inductive Meets (r : Rules α κ) (s : Step α) (later : List (Step α)) (x : Step α)
    (earlier : List (Step α)) : Prop
  | twin (own : x.origin = s.origin) (others : ∀ y ∈ later, y.origin ≠ s.origin)
  | alike (strange : ∀ y ∈ later ++ x :: earlier, y.origin ≠ s.origin)
      (joined : joins r s x = true) (passed : ∀ y ∈ later, passes r s y = true)

/-- The step joins none of the siblings. -/
structure IsNew (r : Rules α κ) (s : Step α) (backward : List (Step α)) : Prop where
  strange : ∀ y ∈ backward, y.origin ≠ s.origin
  unmatched : match? r s backward = none

theorem match?_cons (x : Step α) (rest : List (Step α)) :
    match? r s (x :: rest) =
      if joins r s x then some 0
      else if passes r s x then (match? r s rest).map (· + 1) else none := by
  by_cases hj : joins r s x = true
  · have hj' := hj
    simp only [joins] at hj'
    simp [match?, hj, hj']
  · have hj' := hj
    simp only [joins] at hj'
    simp [match?, hj, hj', passes]

theorem match?_append (hx : joins r s x = true) (hl : ∀ y ∈ later, passes r s y = true) :
    match? r s (later ++ x :: earlier) = some later.length := by
  induction later with
  | nil => simp [match?_cons, hx]
  | cons y later ih =>
    have hy : passes r s y = true := hl y (by simp)
    have hj : joins r s y = false := by
      simp only [passes, Bool.and_eq_true, Bool.not_eq_true'] at hy
      exact hy.1
    have hrest := ih (fun z hz => hl z (by simp [hz]))
    simp [match?_cons, hj, hy, hrest]

theorem exists_of_match? {backward : List (Step α)} {i : Nat}
    (h : match? r s backward = some i) :
    ∃ later x earlier, backward = later ++ x :: earlier ∧ later.length = i ∧
      joins r s x = true ∧ ∀ y ∈ later, passes r s y = true := by
  induction backward generalizing i with
  | nil => simp [match?] at h
  | cons x rest ih =>
    rw [match?_cons] at h
    by_cases hj : joins r s x = true
    · rw [if_pos hj] at h
      have hi : i = 0 := by simpa using h.symm
      exact ⟨[], x, rest, rfl, hi.symm, hj, by simp⟩
    · rw [if_neg hj] at h
      by_cases hp : passes r s x = true
      · rw [if_pos hp] at h
        obtain ⟨j, hm, rfl⟩ := Option.map_eq_some_iff.1 h
        obtain ⟨later, y, earlier, rfl, hlen, hy, hl⟩ := ih hm
        refine ⟨x :: later, y, earlier, rfl, by simp [hlen], hy, ?_⟩
        intro z hz
        rcases List.mem_cons.1 hz with rfl | hz
        · exact hp
        · exact hl z hz
      · rw [if_neg hp] at h
        exact absurd h (by simp)

theorem twin?_eq_none {backward : List (Step α)} :
    twin? s backward = none ↔ ∀ y ∈ backward, y.origin ≠ s.origin := by
  simp [twin?, List.findIdx?_eq_none_iff]

theorem twin?_append (hx : x.origin = s.origin) (hl : ∀ y ∈ later, y.origin ≠ s.origin) :
    twin? s (later ++ x :: earlier) = some later.length := by
  have hnone : twin? s later = none := twin?_eq_none.2 hl
  simp only [twin?] at hnone
  simp [twin?, hnone, List.findIdx?_cons, hx]

theorem partner?_of_meets (h : Meets r s later x earlier) :
    partner? r s (later ++ x :: earlier) = some later.length := by
  cases h with
  | twin own others => simp [partner?, twin?_append own others]
  | alike strange joined passed =>
    have hnone : twin? s (later ++ x :: earlier) = none := twin?_eq_none.2 strange
    simp [partner?, hnone, match?_append joined passed]

theorem partner?_eq_none {backward : List (Step α)} :
    partner? r s backward = none ↔ IsNew r s backward := by
  constructor
  · intro h
    simp only [partner?, Option.or_eq_none_iff] at h
    exact ⟨twin?_eq_none.1 h.1, h.2⟩
  · intro h
    simp [partner?, twin?_eq_none.2 h.strange, h.unmatched]

theorem exists_meets {backward : List (Step α)} {i : Nat}
    (h : partner? r s backward = some i) :
    ∃ later x earlier, backward = later ++ x :: earlier ∧ later.length = i ∧
      Meets r s later x earlier := by
  rcases ht : twin? s backward with _ | j
  · have hm : match? r s backward = some i := by simpa [partner?, ht] using h
    obtain ⟨later, x, earlier, rfl, hlen, hx, hl⟩ := exists_of_match? hm
    exact ⟨later, x, earlier, rfl, hlen, .alike (twin?_eq_none.1 ht) hx hl⟩
  · have hi : j = i := by simpa [partner?, ht] using h
    subst hi
    obtain ⟨hj, hown, hothers⟩ := List.findIdx?_eq_some_iff_getElem.1 ht
    refine ⟨backward.take j, backward[j], backward.drop (j + 1), ?_, ?_, .twin ?_ ?_⟩
    · simp
    · simp; omega
    · simpa using hown
    · intro y hy
      obtain ⟨k, hk, rfl⟩ := List.getElem_of_mem hy
      have hkj : k < j := by simp at hk; omega
      simpa using hothers k hkj

theorem meets_or_isNew (r : Rules α κ) (s : Step α) (g : Growth α) :
    (∃ before n after, g = before ++ n :: after ∧
      Meets r s (after.reverse.map step) (step n) (before.reverse.map step)) ∨
    IsNew r s (g.reverse.map step) := by
  rcases hp : partner? r s (g.reverse.map step) with _ | i
  · exact .inr (partner?_eq_none.1 hp)
  · obtain ⟨later, x, earlier, hsplit, -, hmeets⟩ := exists_meets hp
    obtain ⟨l, rest, hg, rfl, hrest⟩ := List.map_eq_append_iff.1 hsplit
    obtain ⟨n, m, rfl, rfl, rfl⟩ := List.map_eq_cons_iff.1 hrest
    refine .inl ⟨m.reverse, n, l.reverse, ?_, by simpa using hmeets⟩
    have := congrArg List.reverse hg
    simpa using this

theorem insert_of_meets {before after : Growth α} {n : Node (α × Nat)} (rest : Path α)
    (h : Meets r s (after.reverse.map step) (step n) (before.reverse.map step)) :
    insert r (s :: rest) (before ++ n :: after) =
      before ++ ⟨((r.combine (step n) s).1, n.data.2), (r.combine (step n) s).2,
        insert r rest n.children⟩ :: after := by
  have hp := partner?_of_meets h
  have hback : (before ++ n :: after).reverse.map step =
      after.reverse.map step ++ step n :: before.reverse.map step := by simp
  have hat : (before ++ n :: after).length - 1 - (after.reverse.map step).length =
      before.length := by simp
  simp only [insert, hback, hp, hat]
  simp [List.modify_eq_take_cons_drop]

theorem insertIdx_length {β : Type} (before after : List β) (x : β) :
    (before ++ after).insertIdx before.length x = before ++ x :: after := by
  induction before with
  | nil => simp
  | cons b before ih => simpa using ih

theorem insert_of_isNew {before after : Growth α} (rest : Path α)
    (h : IsNew r s ((before ++ after).reverse.map step))
    (hover : overtaken r s ((before ++ after).reverse.map step) = after.length) :
    insert r (s :: rest) (before ++ after) =
      before ++ ⟨(s.data, s.origin), s.extra, insert r rest []⟩ :: after := by
  have hp := partner?_eq_none.2 h
  have hat : (before ++ after).length - after.length = before.length := by simp
  simp only [insert, hp, hover, hat, insertIdx_length]

theorem overtaken_eq (r : Rules α κ) (s : Step α) (backward : List (Step α)) :
    overtaken r s backward =
      (backward.takeWhile (fun x => r.ranksBelow s.data x.data)).length := by
  unfold overtaken Rules.ranksBelow
  split
  · rename_i none
    cases backward <;> simp [none]
  · rename_i k rank
    simp only [rank]
    congr 2
    funext x
    split <;> simp_all

theorem exists_of_isNew {g : Growth α} (h : IsNew r s (g.reverse.map step)) :
    ∃ before after, g = before ++ after ∧
      (∀ rest, insert r (s :: rest) g =
        before ++ ⟨(s.data, s.origin), s.extra, insert r rest []⟩ :: after) ∧
      r.outranked s.data (before.reverse.map (fun n => n.data.1)) = false ∧
      ∀ n ∈ after, r.ranksBelow s.data n.data.1 = true := by
  let above (n : Node (α × Nat)) : Bool := r.ranksBelow s.data n.data.1
  have split : g = (g.reverse.dropWhile above).reverse ++ (g.reverse.takeWhile above).reverse := by
    rw [← List.reverse_append, List.takeWhile_append_dropWhile, List.reverse_reverse]
  have passed : overtaken r s (g.reverse.map step) =
      (g.reverse.takeWhile above).reverse.length := by
    rw [overtaken_eq, List.takeWhile_map, List.length_map, List.length_reverse]
    rfl
  refine ⟨_, _, split, fun rest => ?_, ?_, fun n hn => ?_⟩
  · have new : IsNew r s (((g.reverse.dropWhile above).reverse ++
        (g.reverse.takeWhile above).reverse).reverse.map step) := by rwa [← split]
    have put := insert_of_isNew rest new (by rw [← split, passed])
    rwa [← split] at put
  · rw [List.reverse_reverse, Rules.outranked, List.head?_map]
    have stops := List.head?_dropWhile_not above g.reverse
    cases hd : (g.reverse.dropWhile above).head? with
    | none => rfl
    | some n =>
      rw [hd] at stops
      simpa using stops
  · exact List.all_eq_true.1 List.all_takeWhile n (List.mem_reverse.1 hn)

theorem insertAll_nil (g : Growth α) : insertAll r [] g = g := rfl

theorem insertAll_cons (p : Path α) (paths : List (Path α)) (g : Growth α) :
    insertAll r (p :: paths) g = insertAll r paths (insert r p g) := rfl

theorem insertAll_append (paths more : List (Path α)) (g : Growth α) :
    insertAll r (paths ++ more) g = insertAll r more (insertAll r paths g) :=
  List.foldl_append

theorem ofPaths_eq_insertAll (paths : List (Path α)) :
    ofPaths r paths = insertAll r paths [] := rfl

theorem insertAll_filter_nonempty (paths : List (Path α)) (g : Growth α) :
    insertAll r (paths.filter (fun p => !p.isEmpty)) g = insertAll r paths g := by
  induction paths generalizing g with
  | nil => rfl
  | cons p paths ih =>
    cases p with
    | nil => simpa [insertAll_cons, insert] using ih g
    | cons s rest => simpa [insertAll_cons] using ih _

/-! ### Joining again -/

/-- A step that has joined a node joins it again, and changes nothing then. -/
structure Absorbs (r : Rules α κ) : Prop where
  self (s : Step α) : r.combine s s = (s.data, s.extra)
  again (x s : Step α) (number : Nat) :
    r.combine ⟨(r.combine x s).1, (r.combine x s).2, number⟩ s = r.combine x s
  rejoins {s x : Step α} (h : joins r s x = true) (number : Nat) :
    joins r s ⟨(r.combine x s).1, (r.combine x s).2, number⟩ = true

namespace Absorbs

theorem meets (absorbs : Absorbs r) (h : Meets r s later x earlier) :
    Meets r s later ⟨(r.combine x s).1, (r.combine x s).2, x.origin⟩ earlier := by
  cases h with
  | twin own others => exact .twin own others
  | alike strange joined passed =>
    refine .alike ?_ (absorbs.rejoins joined x.origin) passed
    intro y hy
    rcases List.mem_append.1 hy with hl | hc
    · exact strange y (by simp [hl])
    · rcases List.mem_cons.1 hc with rfl | he
      · exact strange x (by simp)
      · exact strange y (by simp [he])

theorem insertAll_of_meets (absorbs : Absorbs r) {before after : Growth α} {n : Node (α × Nat)}
    {paths : List (Path α)}
    (h : Meets r s (after.reverse.map step) (step n) (before.reverse.map step))
    (hne : paths ≠ []) :
    insertAll r (paths.map (s :: ·)) (before ++ n :: after) =
      before ++ ⟨((r.combine (step n) s).1, n.data.2), (r.combine (step n) s).2,
        insertAll r paths n.children⟩ :: after := by
  induction paths generalizing n with
  | nil => exact absurd rfl hne
  | cons p paths ih =>
    rw [List.map_cons, insertAll_cons, insert_of_meets _ h, insertAll_cons]
    rcases hq : paths with _ | ⟨q, more⟩
    · rfl
    · rw [← hq]
      have hagain : Meets r s (after.reverse.map step)
          (step ⟨((r.combine (step n) s).1, n.data.2), (r.combine (step n) s).2,
            insert r p n.children⟩) (before.reverse.map step) := absorbs.meets h
      have hlast := ih hagain (by simp [hq])
      simp only [step, absorbs.again] at hlast
      exact hlast

theorem insertAll_of_put (absorbs : Absorbs r) {before after : Growth α} {paths : List (Path α)}
    (strange : ∀ y ∈ (before ++ after).reverse.map step, y.origin ≠ s.origin)
    (put : ∀ rest, insert r (s :: rest) (before ++ after) =
      before ++ ⟨(s.data, s.origin), s.extra, insert r rest []⟩ :: after)
    (hne : paths ≠ []) :
    insertAll r (paths.map (s :: ·)) (before ++ after) =
      before ++ ⟨(s.data, s.origin), s.extra, insertAll r paths []⟩ :: after := by
  rcases paths with _ | ⟨p, paths⟩
  · exact absurd rfl hne
  · rw [List.map_cons, insertAll_cons, put, insertAll_cons]
    rcases hq : paths with _ | ⟨q, more⟩
    · rfl
    · have hmeets : Meets r s (after.reverse.map step)
          (step ⟨(s.data, s.origin), s.extra, insert r p []⟩) (before.reverse.map step) :=
        .twin rfl (fun y hy => strange y (by
          simp only [List.reverse_append, List.map_append, List.mem_append]
          exact .inl hy))
      rw [absorbs.insertAll_of_meets hmeets (by simp)]
      simp only [step, absorbs.self]

theorem insertAll_of_isNew (absorbs : Absorbs r) {before after : Growth α}
    {paths : List (Path α)} (h : IsNew r s ((before ++ after).reverse.map step))
    (hover : overtaken r s ((before ++ after).reverse.map step) = after.length)
    (hne : paths ≠ []) :
    insertAll r (paths.map (s :: ·)) (before ++ after) =
      before ++ ⟨(s.data, s.origin), s.extra, insertAll r paths []⟩ :: after :=
  absorbs.insertAll_of_put h.strange (fun rest => insert_of_isNew rest h hover) hne

end Absorbs

end Meeting

/-! ### Without numbers -/

theorem forest_append (g h : Growth Tag) :
    Growth.forest (g ++ h) = Growth.forest g ++ Growth.forest h := by
  simp [Growth.forest, Forest.map_eq]

theorem forest_node (n : Node (Tag × Nat)) :
    Growth.forest [n] = [⟨n.data.1, n.extra, Growth.forest n.children⟩] := by
  cases n
  rfl

theorem forest_replace (before after : Growth Tag) (n : Node (Tag × Nat)) :
    Growth.forest (before ++ n :: after) = Growth.forest before ++
      ⟨n.data.1, n.extra, Growth.forest n.children⟩ :: Growth.forest after := by
  rw [forest_append, ← List.singleton_append, forest_append, forest_node]
  rfl

theorem data_forest (g : Growth Tag) :
    List.map Node.data g.forest = List.map (fun n => n.data.1) g := by
  unfold Growth.forest
  induction g with
  | nil => rfl
  | cons n g ih =>
    cases n
    rw [Forest.map, List.map_cons, List.map_cons, ih]
    rfl

/-! ### The rules of world documents -/

def regrowth (order : List Category) : Rules Tag Category :=
  { worldRules with ranking := order }

variable {order : List Category} {s x : Step Tag} {later earlier : List (Step Tag)}

theorem settle_settle (x s : Step Tag) (o : Nat) :
    Step.settle ⟨(x.settle s).1, (x.settle s).2, o⟩ s = x.settle s := by
  rcases x with ⟨d, ⟨id, inh⟩, n⟩
  rcases s with ⟨d', ⟨id', inh'⟩, n'⟩
  cases id <;> cases id' <;> cases inh <;> cases inh' <;> rfl

theorem settle_data (x s : Step Tag) :
    (x.settle s).1 = x.data ∨ (x.settle s).1 = s.data := by
  simp only [Step.settle]
  split
  · exact .inl rfl
  · exact .inr rfl

theorem settle_of_both {P : Tag → Prop} {x s : Step Tag} (own : P x.data) (other : P s.data) :
    P (x.settle s).1 := by
  rcases settle_data x s with kept | taken
  · rwa [kept]
  · rwa [taken]

theorem isWrapper_eq_of_same {a b : Tag} (h : a.same b = true) : a.isWrapper = b.isWrapper := by
  cases a <;> cases b <;> simp [Tag.same] at h <;> rfl

theorem category_eq_of_same {a b : Tag} (h : a.same b = true) : a.category = b.category := by
  cases a <;> cases b <;> simp [Tag.same] at h <;> rfl

theorem field?_eq_of_same {a b : Tag} (h : a.same b = true) : a.field? = b.field? := by
  cases a <;> cases b <;> simp [Tag.same] at h <;> simp [Tag.field?, h]

theorem joins_regrowth :
    joins (regrowth order) s x =
      (!s.data.isWrapper && !x.data.isWrapper && x.data.same s.data) := rfl

theorem joins_settle (h : joins (regrowth order) s x = true) (o : Nat) :
    joins (regrowth order) s ⟨(x.settle s).1, (x.settle s).2, o⟩ = true := by
  simp only [joins_regrowth, Bool.and_eq_true] at h ⊢
  obtain ⟨⟨hs, hx⟩, hsame⟩ := h
  have again : s.data.same s.data = true := by
    refine Tag.same_trans ?_ hsame
    rwa [Tag.same_comm]
  have kept : (!(x.settle s).1.isWrapper) = true ∧ (x.settle s).1.same s.data = true :=
    settle_of_both (P := fun t => (!t.isWrapper) = true ∧ t.same s.data = true) ⟨hx, hsame⟩
      ⟨hs, again⟩
  exact ⟨⟨hs, kept.1⟩, kept.2⟩

theorem absorbs_regrowth : Absorbs (regrowth order) :=
  ⟨Step.settle_self, settle_settle, joins_settle⟩

theorem insertAll_of_meets {before after : Growth Tag} {n : Node (Tag × Nat)}
    {paths : List (Path Tag)}
    (h : Meets (regrowth order) s (after.reverse.map step) (step n) (before.reverse.map step))
    (hne : paths ≠ []) :
    insertAll (regrowth order) (paths.map (s :: ·)) (before ++ n :: after) =
      before ++ ⟨(((step n).settle s).1, n.data.2), ((step n).settle s).2,
        insertAll (regrowth order) paths n.children⟩ :: after :=
  absorbs_regrowth.insertAll_of_meets h hne

theorem insertAll_of_isNew {before after : Growth Tag} {paths : List (Path Tag)}
    (h : IsNew (regrowth order) s ((before ++ after).reverse.map step))
    (hover : overtaken (regrowth order) s ((before ++ after).reverse.map step) = after.length)
    (hne : paths ≠ []) :
    insertAll (regrowth order) (paths.map (s :: ·)) (before ++ after) =
      before ++ ⟨(s.data, s.origin), s.extra, insertAll (regrowth order) paths []⟩ :: after :=
  absorbs_regrowth.insertAll_of_isNew h hover hne

end Growth

/-! ### Numbers that are still free -/

mutual

def Node.IsNumberedBelow (bound : Nat) : Node (Tag × Nat) → Prop
  | ⟨(_, number), _, cs⟩ => number < bound ∧ Forest.IsNumberedBelow bound cs

def Forest.IsNumberedBelow (bound : Nat) : Growth Tag → Prop
  | [] => True
  | n :: rest => n.IsNumberedBelow bound ∧ Forest.IsNumberedBelow bound rest

end

namespace Growth

variable {bound : Nat} {g h : Growth Tag} {order : List Category}

theorem isNumberedBelow_iff :
    Forest.IsNumberedBelow bound g ↔ ∀ n ∈ g, n.IsNumberedBelow bound := by
  induction g with
  | nil => simp [Forest.IsNumberedBelow]
  | cons n g ih => simp [Forest.IsNumberedBelow, ih]

theorem isNumberedBelow_append :
    Forest.IsNumberedBelow bound (g ++ h) ↔
      Forest.IsNumberedBelow bound g ∧ Forest.IsNumberedBelow bound h := by
  simp only [isNumberedBelow_iff, List.forall_mem_append]

theorem isNumberedBelow_mono {bound' : Nat} (le : bound ≤ bound')
    (h : Forest.IsNumberedBelow bound g) : Forest.IsNumberedBelow bound' g := by
  induction g using Forest.induction with
  | nil => trivial
  | cons d e cs rest hcs hrest =>
    obtain ⟨⟨own, below⟩, beside⟩ := h
    exact ⟨⟨Nat.lt_of_lt_of_le own le, hcs below⟩, hrest beside⟩

theorem isNumberedBelow_insert {p : Path Tag} (numbers : ∀ s ∈ p, s.origin < bound)
    (h : Forest.IsNumberedBelow bound g) :
    Forest.IsNumberedBelow bound (insert (regrowth order) p g) := by
  induction p generalizing g with
  | nil => exact h
  | cons s rest ih =>
    obtain ⟨own, later⟩ := List.forall_mem_cons.1 numbers
    rcases meets_or_isNew (regrowth order) s g with ⟨before, n, after, rfl, hmeets⟩ | hnew
    · obtain ⟨hbefore, hn, hafter⟩ := isNumberedBelow_append.1 h
      rcases n with ⟨⟨t, number⟩, e, cs⟩
      rw [insert_of_meets _ hmeets]
      exact isNumberedBelow_append.2 ⟨hbefore, ⟨hn.1, ih later hn.2⟩, hafter⟩
    · obtain ⟨before, after, rfl, hput, -⟩ := exists_of_isNew hnew
      obtain ⟨hbefore, hafter⟩ := isNumberedBelow_append.1 h
      rw [hput]
      exact isNumberedBelow_append.2 ⟨hbefore, ⟨own, ih later trivial⟩, hafter⟩

theorem isNumberedBelow_insertAll {paths : List (Path Tag)}
    (numbers : ∀ p ∈ paths, ∀ s ∈ p, s.origin < bound) (h : Forest.IsNumberedBelow bound g) :
    Forest.IsNumberedBelow bound (insertAll (regrowth order) paths g) := by
  induction paths generalizing g with
  | nil => exact h
  | cons p paths ih =>
    rw [insertAll_cons]
    exact ih (fun q hq => numbers q (by simp [hq])) (isNumberedBelow_insert (numbers p (by simp)) h)

end Growth

end WorldMarkup
