import WorldMarkup.Proofs.Tree.Ledger
import WorldMarkup.Proofs.Tree.Wrappers

/-!
The order of siblings. Where every category has a rank and only equal data join, the siblings in
what grows back from a forest, filtered any number of times, stand in order of rank, and those of
one rank in the order of the first paths that run through them.
-/

set_option autoImplicit false
set_option relaxedAutoImplicit false

namespace WorldMarkup

variable {α κ : Type}

/-! ### Where a step first stands on a path -/

namespace Path

/-- The place of the first path that takes a step of this number. -/
def firstWith (paths : List (Path α)) (number : Nat) : Nat :=
  paths.findIdx (fun p => p.any (fun s => s.origin == number))

/-- Where two of the paths part, all from there on has its place first on the path that takes the
smaller number. -/
def IsPlaced (place : Nat → Nat) (paths : List (Path α)) : Prop :=
  ∀ ⦃x y y' : Path α⦄ ⦃s s' : Step α⦄, x ++ s :: y ∈ paths → x ++ s' :: y' ∈ paths →
    s.origin < s'.origin → ∀ c ∈ s :: y, ∀ b ∈ s' :: y', place c.origin < place b.origin

theorem firstWith_le {paths : List (Path α)} {i : Nat} (hi : i < paths.length) {c : Step α}
    (hc : c ∈ paths[i]) : firstWith paths c.origin ≤ i := by
  by_contra later
  have none := List.not_of_lt_findIdx (Nat.not_le.1 later)
  rw [List.any_eq_false] at none
  exact none c hc (by simp)

variable {isWrapper : α → Bool} {place : Nat → Nat} {paths : List (Path α)}

theorem IsLineage.isPlaced (h : IsLineage isWrapper paths) :
    IsPlaced (firstWith paths) paths := by
  intro x y y' s s' hp hq lower c hc b hb
  obtain ⟨i, hi, path⟩ := List.getElem_of_mem hp
  have early : firstWith paths c.origin ≤ i :=
    firstWith_le hi (by rw [path]; exact List.mem_append_right x hc)
  refine Nat.lt_of_le_of_lt early ?_
  by_contra late
  -- the first path that takes the number of `b` runs through `s'`, and so comes after the other
  have some : firstWith paths b.origin < paths.length := by omega
  have taken := List.findIdx_getElem (w := some)
  obtain ⟨b', hb', number⟩ := List.any_eq_true.1 taken
  obtain ⟨z, z', split⟩ := List.append_of_mem hb'
  obtain ⟨u, u', whole⟩ := List.append_of_mem hb
  have there : z ++ b' :: z' ∈ paths := split ▸ List.getElem_mem some
  have here : (x ++ u) ++ b :: u' ∈ paths := by rwa [List.append_assoc, ← whole]
  obtain ⟨rfl, rfl⟩ := h.agree there here (by simpa using number)
  have through : ∃ v, paths[firstWith paths b'.origin] = x ++ s' :: v := by
    cases u with
    | nil =>
      obtain ⟨rfl, -⟩ := List.cons.inj whole
      exact ⟨z', by rwa [List.append_nil] at split⟩
    | cons d u =>
      obtain ⟨rfl, -⟩ := List.cons.inj whole
      exact ⟨u ++ b' :: z', by rwa [List.append_assoc] at split⟩
  obtain ⟨v, through⟩ := through
  rcases Nat.lt_or_eq_of_le (Nat.not_lt.1 late) with before | same
  · have rises := List.pairwise_iff_getElem.1 h.rising _ _ some hi before
    exact absurd (rises x v y s' s through path) (Nat.not_le.2 lower)
  · simp only [same, path] at through
    obtain ⟨rfl, -⟩ := List.cons.inj (List.append_cancel_left through)
    exact absurd lower (Nat.lt_irrefl _)

theorem IsPlaced.mono {more : List (Path α)} (h : IsPlaced place more)
    (sub : ∀ p ∈ paths, p ∈ more) : IsPlaced place paths :=
  fun _ _ _ _ _ hp hq => h (sub _ hp) (sub _ hq)

theorem IsPlaced.below {s : Step α} (h : IsPlaced place (paths.map (s :: ·))) :
    IsPlaced place paths :=
  fun x _ _ _ _ hp hq => h (x := s :: x) (List.mem_map_of_mem hp) (List.mem_map_of_mem hq)

end Path

/-! ### Siblings in order -/

/-- Only equal data join, and of two steps that join the later wins. -/
structure Rules.JoinsEqual (r : Rules α κ) : Prop where
  same : ∀ a b, r.same a b = true ↔ a = b
  combine : r.combine = Step.overlay

theorem Growth.absorbs_of_joinsEqual {r : Rules α κ} (plain : r.JoinsEqual) : Absorbs r where
  self s := by rw [plain.combine, Step.overlay_self]
  again x s number := by
    rw [plain.combine]
    cases h : s.extra.id <;> simp [Step.overlay, h]
  rejoins {s x} h number := by
    simp only [joins, Bool.and_eq_true, Bool.not_eq_true'] at h ⊢
    rw [plain.combine]
    exact ⟨⟨h.1.1, h.1.1⟩, (plain.same _ _).2 rfl⟩

theorem Growth.combine_noting {r : Rules α κ} (plain : r.JoinsEqual) {d : α}
    {notes : List (Step α)} {s : Step α} (equal : d = s.data) (number : Nat) (e : Extra)
    (cs : Growth (α × List (Step α))) :
    (r.noting.combine (step ⟨((d, notes), number), e, cs⟩) s.noted).1 =
      (d, Step.joinNotes notes [s]) := by
  rw [equal]
  simp only [Rules.noting, plain.combine]
  rfl

section Order

variable [DecidableEq κ] (r : Rules α κ)

def Node.firstPath (paths : List (Path α)) (n : Node (α × List (Step α))) : Nat :=
  paths.findIdx (fun p => p.any (fun s => n.data.2.any (fun c => c.origin == s.origin)))

/-- Siblings that stand in order of rank, and those of one rank in the order of their first
paths. -/
def Rules.IsSorted (paths : List (Path α)) (siblings : Forest (α × List (Step α))) : Prop :=
  siblings.Pairwise fun m n => ∃ j k, r.rank? (r.category m.data.1) = some j ∧
    r.rank? (r.category n.data.1) = some k ∧
    (j < k ∨ j = k ∧ m.firstPath paths < n.firstPath paths)

theorem Rules.exists_rank {r : Rules α κ} {c : κ} (h : c ∈ r.ranking) :
    ∃ k, r.rank? c = some k :=
  Option.isSome_iff_exists.1 (List.findIdx?_isSome.trans (List.any_eq_true.2 ⟨c, h, by simp⟩))

namespace Growth

/-- A growing node that stands before another: its rank comes first, or the two have one rank and
some step noted at the node has its place before all that are noted at the other. -/
def Precedes (place : Nat → Nat) (m n : Node ((α × List (Step α)) × Nat)) : Prop :=
  ∃ j k, r.rank? (r.category m.data.1.1) = some j ∧ r.rank? (r.category n.data.1.1) = some k ∧
    (j < k ∨ j = k ∧ ∃ c ∈ m.data.1.2, ∀ b ∈ n.data.1.2, place c.origin < place b.origin)

/-- A growing node has a rank, notes the step of its number, and has its children in order. -/
structure IsRankedNode (place : Nat → Nat) (n : Node ((α × List (Step α)) × Nat)) : Prop where
  listed : r.category n.data.1.1 ∈ r.ranking
  own : ∃ c ∈ n.data.1.2, c.origin = n.data.2
  children : n.children.Pairwise (Precedes r place)

/-- A growing forest with its siblings in order, at the roots and below. -/
structure IsRanked (place : Nat → Nat) (g : Growth (α × List (Step α))) : Prop where
  siblings : List.Pairwise (Precedes r place) g
  nodes : ∀ n ∈ Forest.trees g, IsRankedNode r place n

variable {r} {place : Nat → Nat} {g before after : Growth (α × List (Step α))} {s : Step α}
variable {paths : List (Path (α × List (Step α)))}

theorem exists_of_ranksBelow {d x : α} (h : r.ranksBelow d x = true) :
    ∃ j k, r.rank? (r.category d) = some j ∧ r.rank? (r.category x) = some k ∧ j < k := by
  unfold Rules.ranksBelow at h
  split at h
  · rename_i j k hj hk
    exact ⟨j, k, hj, hk, of_decide_eq_true h⟩
  · exact absurd h (by simp)

theorem not_ranksBelow (sorted : before.Pairwise (Precedes r place)) {x : α × List (Step α)}
    (last : r.noting.outranked x (before.reverse.map (fun n => n.data.1)) = false) :
    ∀ m ∈ before, r.ranksBelow x.1 m.data.1.1 = false := by
  rcases List.eq_nil_or_concat' before with rfl | ⟨before, l, rfl⟩
  · simp
  · have own : r.noting.ranksBelow x l.data.1 = false := by simpa [Rules.outranked] using last
    intro m hm
    rcases List.mem_append.1 hm with hm | hm
    · obtain ⟨j, k, hj, hk, le⟩ := (List.pairwise_append.1 sorted).2.2 m hm l (by simp)
      by_contra above
      obtain ⟨i, j', hi, hj', lt⟩ := exists_of_ranksBelow (by simpa using above)
      obtain rfl : j = j' := Option.some.inj (hj.symm.trans hj')
      have : r.ranksBelow x.1 l.data.1.1 = true := by
        simp only [Rules.ranksBelow, hi, hk, decide_eq_true_eq]
        rcases le with le | ⟨rfl, -⟩ <;> omega
      exact Bool.false_ne_true (own.symm.trans this)
    · obtain rfl := List.mem_singleton.1 hm
      exact own

theorem IsRanked.nil : IsRanked r place [] := ⟨.nil, by simp [Forest.trees_nil]⟩

/-- A forest is in order when it is so without one of its trees, and the tree is so and stands in
its place. -/
theorem isRanked_insert {n : Node ((α × List (Step α)) × Nat)} :
    IsRanked r place (before ++ n :: after) ↔ IsRanked r place (before ++ after) ∧
      (∀ m ∈ before, Precedes r place m n) ∧ (∀ m ∈ after, Precedes r place n m) ∧
      IsRankedNode r place n ∧ IsRanked r place n.children := by
  obtain ⟨d, e, cs⟩ := n
  constructor
  · rintro ⟨siblings, nodes⟩
    rw [Forest.trees_append, Forest.trees_cons] at nodes
    simp only [List.forall_mem_append, List.forall_mem_cons] at nodes
    obtain ⟨first, own, below, last⟩ := nodes
    obtain ⟨-, later, across⟩ := List.pairwise_append.1 siblings
    refine ⟨⟨siblings.sublist (by simp), ?_⟩, fun m hm => across m hm _ List.mem_cons_self,
      (List.pairwise_cons.1 later).1, own, own.children, below⟩
    rw [Forest.trees_append]
    exact List.forall_mem_append.2 ⟨first, last⟩
  · rintro ⟨⟨siblings, nodes⟩, left, right, own, below⟩
    obtain ⟨hbefore, hafter, across⟩ := List.pairwise_append.1 siblings
    rw [Forest.trees_append] at nodes
    obtain ⟨first, last⟩ := List.forall_mem_append.1 nodes
    constructor
    · refine List.pairwise_append.2 ⟨hbefore, List.pairwise_cons.2 ⟨right, hafter⟩, ?_⟩
      intro m hm x hx
      rcases List.mem_cons.1 hx with rfl | hx
      · exact left m hm
      · exact across m hm x hx
    · rw [Forest.trees_append, Forest.trees_cons]
      simp only [List.forall_mem_append, List.forall_mem_cons]
      exact ⟨first, own, below.nodes, last⟩

/-! ### Steps that join, and steps that are new -/

section Joining

variable {m n : Node ((α × List (Step α)) × Nat)} {d : α} {notes : List (Step α)} {number : Nat}
variable {e e' : Extra} {cs cs' : Growth (α × List (Step α))}

theorem data_eq_of_meets (plain : r.JoinsEqual) {later earlier : List (Step (α × List (Step α)))}
    (meets : Meets r.noting s.noted later (step ⟨((d, notes), number), e, cs⟩) earlier)
    (own : ∃ c ∈ notes, c.origin = number)
    (older : ∀ c ∈ notes, place c.origin < place s.origin) : d = s.data := by
  cases meets with
  | twin same _ =>
    obtain ⟨c, hc, hnumber⟩ := own
    have same : number = s.origin := same
    have := older c hc
    rw [hnumber, same] at this
    exact absurd this (Nat.lt_irrefl _)
  | alike _ joined _ =>
    simp only [joins, Bool.and_eq_true] at joined
    exact (plain.same _ _).1 joined.2

theorem Precedes.join_right (h : Precedes r place m ⟨((d, notes), number), e, cs⟩)
    (later : ∀ c ∈ m.data.1.2, place c.origin < place s.origin) :
    Precedes r place m ⟨((d, Step.joinNotes notes [s]), number), e', cs'⟩ := by
  obtain ⟨j, k, hj, hk, le⟩ := h
  refine ⟨j, k, hj, hk, le.imp_right ?_⟩
  rintro ⟨rfl, c, hc, first⟩
  refine ⟨rfl, c, hc, fun b hb => ?_⟩
  rcases List.mem_append.1 hb with hb | hb
  · exact first b hb
  · obtain rfl := List.mem_singleton.1 (List.mem_filter.1 hb).1
    exact later c hc

theorem Precedes.join_left (h : Precedes r place ⟨((d, notes), number), e, cs⟩ n) :
    Precedes r place ⟨((d, Step.joinNotes notes [s]), number), e', cs'⟩ n := by
  obtain ⟨j, k, hj, hk, le⟩ := h
  refine ⟨j, k, hj, hk, le.imp_right ?_⟩
  rintro ⟨rfl, c, hc, first⟩
  exact ⟨rfl, c, List.mem_append_left _ hc, first⟩

theorem IsRankedNode.precedes_new (h : IsRankedNode r place m)
    (listed : r.category s.data ∈ r.ranking) (level : r.ranksBelow s.data m.data.1.1 = false)
    (later : ∀ c ∈ m.data.1.2, place c.origin < place s.origin) :
    Precedes r place m ⟨(s.noted.data, s.origin), e, cs⟩ := by
  obtain ⟨j, hj⟩ := Rules.exists_rank h.listed
  obtain ⟨k, hk⟩ := Rules.exists_rank listed
  obtain ⟨c, hc, -⟩ := h.own
  have le : j ≤ k := by simpa [Rules.ranksBelow, hj, hk] using level
  refine ⟨j, k, hj, hk, ?_⟩
  rcases Nat.lt_or_eq_of_le le with lt | same
  · exact .inl lt
  · refine .inr ⟨same, c, hc, fun b hb => ?_⟩
    obtain rfl := List.mem_singleton.1 hb
    exact later c hc

theorem precedes_of_ranksBelow (h : r.ranksBelow s.data n.data.1.1 = true) :
    Precedes r place ⟨(s.noted.data, s.origin), e, cs⟩ n := by
  obtain ⟨j, k, hj, hk, lt⟩ := exists_of_ranksBelow h
  exact ⟨j, k, hj, hk, .inl lt⟩

end Joining

/-- Laying paths below one step keeps siblings in order, if the paths do so below it: the step joins
a sibling of its own data, or stands behind those that do not rank above it. -/
theorem IsRanked.laid (plain : r.JoinsEqual) (ranked : IsRanked r place g)
    (earlier : ∀ n ∈ Forest.trees g, ∀ c ∈ n.data.1.2, place c.origin < place s.origin)
    (listed : r.category s.data ∈ r.ranking) (some : paths ≠ [])
    (inner : ∀ h, IsRanked r place h → (∀ n ∈ Forest.trees h, n ∈ Forest.trees g) →
      IsRanked r place (insertAll r.noting paths h)) :
    IsRanked r place (insertAll r.noting (paths.map (s.noted :: ·)) g) := by
  have absorbs : Absorbs r.noting := absorbs_noting (absorbs_of_joinsEqual plain)
  rcases absorbs.laid s.noted some g with
    ⟨before, ⟨⟨⟨d, notes⟩, number⟩, e, cs⟩, after, rfl, meets, put⟩ |
      ⟨before, after, rfl, ⟨last, above⟩, put⟩
  · obtain ⟨rest, left, right, own, below⟩ := isRanked_insert.1 ranked
    have older : ∀ c ∈ notes, place c.origin < place s.origin :=
      earlier ⟨((d, notes), number), e, cs⟩ (Forest.mem_trees_of_mem (by simp))
    have equal := data_eq_of_meets plain meets own.own older
    have grown := inner cs below (fun n hn => by
      rw [Forest.trees_append, Forest.trees_cons]
      simp [hn])
    obtain ⟨c, hc, hnumber⟩ := own.own
    rw [put, combine_noting plain equal, isRanked_insert]
    refine ⟨rest, fun m hm => ?_, fun m hm => (right m hm).join_left,
      ⟨own.listed, ⟨c, List.mem_append_left _ hc, hnumber⟩, grown.siblings⟩, grown⟩
    exact (left m hm).join_right (earlier m (Forest.mem_trees_of_mem (by simp [hm])))
  · have grown := inner [] .nil (by simp [Forest.trees_nil])
    have level := not_ranksBelow (List.pairwise_append.1 ranked.siblings).1 last
    rw [put, isRanked_insert]
    refine ⟨ranked, fun m hm => ?_, fun m hm => precedes_of_ranksBelow (above m hm),
      ⟨listed, ⟨s, List.mem_cons_self, rfl⟩, grown.siblings⟩, grown⟩
    have there : m ∈ Forest.trees (before ++ after) := Forest.mem_trees_of_mem (by simp [hm])
    exact (ranked.nodes m there).precedes_new listed (level m hm) (earlier m there)

/-! ### Laying a forest -/

def AllNoted (P : Step α → Prop) (g : Growth (α × List (Step α))) : Prop :=
  ∀ n ∈ Forest.trees g, ∀ c ∈ n.data.1.2, P c

section Notes

variable {P : Step α → Prop}

theorem allNoted_insert_iff {d : (α × List (Step α)) × Nat} {e : Extra}
    {cs : Growth (α × List (Step α))} : AllNoted P (before ++ ⟨d, e, cs⟩ :: after) ↔
      AllNoted P before ∧ (∀ c ∈ d.1.2, P c) ∧ AllNoted P cs ∧ AllNoted P after := by
  simp only [AllNoted, Forest.trees_append, Forest.trees_cons, List.forall_mem_append,
    List.forall_mem_cons]

theorem AllNoted.insert {p : Path α} (old : AllNoted P g) (new : ∀ s ∈ p, P s) :
    AllNoted P (Growth.insert r.noting (p.map Step.noted) g) := by
  induction p generalizing g with
  | nil => exact old
  | cons s p ih =>
    obtain ⟨own, later⟩ := List.forall_mem_cons.1 new
    rw [List.map_cons]
    rcases meets_or_isNew r.noting s.noted g with
      ⟨before, ⟨d, e, cs⟩, after, rfl, meets⟩ | isNew
    · obtain ⟨hbefore, hd, hcs, hafter⟩ := allNoted_insert_iff.1 old
      rw [insert_of_meets _ meets]
      refine allNoted_insert_iff.2 ⟨hbefore, fun c hc => ?_, ih hcs later, hafter⟩
      rcases List.mem_append.1 hc with hc | hc
      · exact hd c hc
      · obtain rfl := List.mem_singleton.1 (List.mem_filter.1 hc).1
        exact own
    · obtain ⟨before, after, rfl, put, -⟩ := exists_of_isNew isNew
      have parts : AllNoted P before ∧ AllNoted P after := by
        simpa only [AllNoted, Forest.trees_append, List.forall_mem_append] using old
      have none : AllNoted P [] := by simp [AllNoted, Forest.trees_nil]
      rw [put]
      refine allNoted_insert_iff.2 ⟨parts.1, fun c hc => ?_, ih none later, parts.2⟩
      obtain rfl := List.mem_singleton.1 hc
      exact own

theorem AllNoted.insertAll {kept : List (Path α)} (old : AllNoted P g)
    (new : ∀ p ∈ kept, ∀ s ∈ p, P s) :
    AllNoted P (Growth.insertAll r.noting (kept.map (List.map Step.noted)) g) := by
  induction kept generalizing g with
  | nil => exact old
  | cons p kept ih =>
    rw [List.map_cons, insertAll_cons]
    exact ih (old.insert (new p List.mem_cons_self)) fun q hq => new q (List.mem_cons_of_mem p hq)

end Notes

theorem IsRanked.insertAll_root (plain : r.JoinsEqual) {below : List (Path α)}
    (ranked : IsRanked r place g)
    (listed : ∀ p ∈ below.map (s :: ·), ∀ b ∈ p, r.category b.data ∈ r.ranking)
    (earlier :
      AllNoted (fun c => ∀ p ∈ below.map (s :: ·), ∀ b ∈ p, place c.origin < place b.origin) g)
    (inner : ∀ h, IsRanked r place h →
      AllNoted (fun c => ∀ p ∈ below.filter (fun p => !p.isEmpty), ∀ b ∈ p,
        place c.origin < place b.origin) h →
      IsRanked r place (Growth.insertAll r.noting
        ((below.filter (fun p => !p.isEmpty)).map (List.map Step.noted)) h)) :
    IsRanked r place
      (Growth.insertAll r.noting ((below.map (s :: ·)).map (List.map Step.noted)) g) := by
  by_cases empty : below = []
  · subst empty
    exact ranked
  have noted : (below.map (s :: ·)).map (List.map Step.noted) =
      (below.map (List.map Step.noted)).map (s.noted :: ·) := by
    rw [List.map_map, List.map_map]
    rfl
  obtain ⟨p, hp⟩ := List.exists_mem_of_ne_nil below empty
  have root : s :: p ∈ below.map (s :: ·) := List.mem_map_of_mem hp
  rw [noted]
  refine ranked.laid plain (fun n hn c hc => earlier n hn c hc _ root s List.mem_cons_self)
    (listed _ root s List.mem_cons_self) (by simpa using empty) fun h ranked' sub => ?_
  rw [← insertAll_filter_nonempty, List.filter_map]
  simp only [Function.comp_def, List.isEmpty_map]
  refine inner h ranked' fun n hn c hc q hq b hb => ?_
  exact earlier n (sub n hn) c hc _ (List.mem_map_of_mem (List.mem_filter.1 hq).1) b
    (List.mem_cons_of_mem s hb)

/-- Laying paths of a forest, some of them dropped and others cut short, keeps siblings in order, if
what is noted before has its place before all their steps. -/
theorem IsRanked.insertAll (plain : r.JoinsEqual) {t : Forest α} {first : Nat}
    {kept : List (Path α)} (trims : Path.Trims kept (Forest.pathsFrom first t))
    (nonempty : [] ∉ kept) (placed : Path.IsPlaced place kept)
    (listed : ∀ p ∈ kept, ∀ b ∈ p, r.category b.data ∈ r.ranking) (ranked : IsRanked r place g)
    (earlier : AllNoted (fun c => ∀ p ∈ kept, ∀ b ∈ p, place c.origin < place b.origin) g) :
    IsRanked r place (Growth.insertAll r.noting (kept.map (List.map Step.noted)) g) := by
  induction t using Forest.induction generalizing first kept g with
  | nil =>
    cases trims
    exact ranked
  | cons d e cs rest hcs hrest =>
    rw [Forest.pathsFrom, Forest.paths_eq_rests] at trims
    obtain ⟨own, beside, rfl, hown, hbeside⟩ := Path.exists_of_trims_append trims
    obtain ⟨nonemptyOwn, nonemptyBeside⟩ : [] ∉ own ∧ [] ∉ beside := by simpa using nonempty
    obtain ⟨below, rfl, hbelow⟩ := Path.exists_of_trims_map hown nonemptyOwn
    obtain ⟨listedOwn, listedBeside⟩ := List.forall_mem_append.1 listed
    have placedOwn := placed.mono fun p hp => List.mem_append_left beside hp
    have grown := ranked.insertAll_root plain listedOwn
      (fun n hn c hc p hp => earlier n hn c hc p (List.mem_append_left beside hp))
      fun h ranked' earlier' => by
        refine hcs hbelow.below (by simp) ?_ (fun q hq b hb => ?_) ranked' earlier'
        · exact placedOwn.below.mono fun q hq => (List.mem_filter.1 hq).1
        · exact listedOwn _ (List.mem_map_of_mem (List.mem_filter.1 hq).1) b
            (List.mem_cons_of_mem _ hb)
    rw [List.map_append, insertAll_append]
    refine hrest hbeside nonemptyBeside (placed.mono fun p hp => List.mem_append_right _ hp)
      listedBeside grown
      (AllNoted.insertAll (fun n hn c hc p hp => ?_) fun p hp c hc q hq b hb => ?_)
    · exact earlier n hn c hc p (List.mem_append_right _ hp)
    · -- the paths of later trees part from those of this one at the roots
      obtain ⟨p', -, rfl⟩ := List.mem_map.1 hp
      obtain ⟨s, q, rfl⟩ := List.exists_cons_of_ne_nil (fun none => nonemptyBeside (none ▸ hq))
      obtain ⟨longer, hlonger, short⟩ := hbeside.exists_longer hq
      have higher := (Forest.origin_bounds hlonger (short.subset List.mem_cons_self)).1
      rw [Forest.size_eq] at higher
      have lower : first < s.origin := by omega
      exact placed (x := []) (List.mem_append_left _ hp) (List.mem_append_right _ hq) lower
        c hc b hb

end Growth

end Order

/-! ### Filtered outlines -/

theorem Forest.mem_preorder_of_mem_path {t : Forest α} {first : Nat} {p : Path α}
    (hp : p ∈ Forest.pathsFrom first t) {s : Step α} (hs : s ∈ p) :
    (s.data, s.extra) ∈ Forest.preorder t := by
  induction t using Forest.induction generalizing first p with
  | nil => simp [Forest.pathsFrom] at hp
  | cons d e cs rest hcs hrest =>
    rw [preorder_cons]
    rw [Forest.pathsFrom, paths_eq_rests] at hp
    rcases List.mem_append.1 hp with hp | hp
    · obtain ⟨q, hq, rfl⟩ := List.mem_map.1 hp
      rcases List.mem_cons.1 hs with rfl | hs
      · exact List.mem_cons_self
      · rw [rests] at hq
        split at hq
        · simp [List.mem_singleton.1 hq] at hs
        · exact List.mem_cons_of_mem _ (List.mem_append_left _ (hcs hq hs))
    · exact List.mem_cons_of_mem _ (List.mem_append_right _ (hrest hp hs))

namespace Outline

theorem IsSieved.foldl_filter {o : Outline α κ} (h : o.IsSieved) (nonempty : [] ∉ o.paths)
    (qs : List (Query α)) :
    (qs.foldl Outline.filter o).IsSieved ∧ (qs.foldl Outline.filter o).rules = o.rules ∧
      [] ∉ (qs.foldl Outline.filter o).paths ∧
      Path.Trims (qs.foldl Outline.filter o).paths o.paths := by
  induction qs generalizing o with
  | nil => exact ⟨h, rfl, nonempty, .refl o.paths⟩
  | cons q qs ih =>
    have kept : [] ∉ (o.filter q).paths := by
      intro none
      rcases (h.filter_paths q).1.others [] none with wanted | ⟨p, -, -, w, b, -, stands⟩
      · exact nonempty (List.mem_filter.1 wanted).1
      · simpa using stands.mem.subset (a := w)
    obtain ⟨sieved, rules, rest, trims⟩ := ih (h.filter q) kept
    exact ⟨sieved, rules, rest, trims.trans (Path.trims_filter _ _ o.paths)⟩

section Ledger

variable [DecidableEq κ] {r : Rules α κ} {paths : List (Path α)}

theorem isSorted_of_precedes {siblings : Growth (α × List (Step α))}
    (nodes : ∀ n ∈ siblings, ∃ c, c ∈ n.data.1.2)
    (sorted : siblings.Pairwise (Growth.Precedes r (Path.firstWith paths))) :
    r.IsSorted paths (Forest.map Prod.fst siblings) := by
  rw [Rules.IsSorted, Forest.map_eq, List.pairwise_map]
  refine sorted.imp_of_mem ?_
  rintro ⟨⟨⟨d, notes⟩, number⟩, e, cs⟩ ⟨⟨⟨d', notes'⟩, number'⟩, e', cs'⟩ - hn
    ⟨j, k, hj, hk, le⟩
  refine ⟨j, k, hj, hk, le.imp_right ?_⟩
  rintro ⟨rfl, c, hc, first⟩
  refine ⟨rfl, ?_⟩
  have early : Node.firstPath paths ⟨(d, notes), e, Forest.map Prod.fst cs⟩ ≤
      Path.firstWith paths c.origin := by
    refine List.findIdx_le_findIdx fun p _ hp => ?_
    obtain ⟨s, hs, same⟩ := List.any_eq_true.1 hp
    exact List.any_eq_true.2 ⟨s, hs, List.any_eq_true.2 ⟨c, hc, (BEq.comm).trans same⟩⟩
  refine Nat.lt_of_le_of_lt early ?_
  -- the first path of the other takes some step noted at it
  by_cases some : Node.firstPath paths ⟨(d', notes'), e', Forest.map Prod.fst cs'⟩ < paths.length
  · have taken := List.findIdx_getElem (w := some)
    obtain ⟨s, hs, same⟩ := List.any_eq_true.1 taken
    obtain ⟨b, hb, same⟩ := List.any_eq_true.1 same
    have number : b.origin = s.origin := by simpa using same
    have := first b hb
    rw [number] at this
    exact Nat.lt_of_lt_of_le this (Path.firstWith_le some hs)
  · obtain ⟨b, hb⟩ := nodes _ hn
    exact Nat.lt_of_lt_of_le (first b hb) (List.findIdx_le_length.trans (Nat.not_lt.1 some))

/-- Where only equal data join, the later ones of two winning, and every category has a rank: in
what grows back from a forest, filtered any number of times, every node comes of some path, and
siblings stand in order of rank, those of one rank in the order of their first paths. -/
theorem isSorted_ledger {t : Forest α} {o o' : Outline α κ} {qs : List (Query α)}
    (taken : ofForest r t = .ok o) (filtered : qs.foldl Outline.filter o = o')
    (plain : r.JoinsEqual) (listed : ∀ x ∈ Forest.preorder t, r.category x.1 ∈ r.ranking) :
    Forest.map Prod.fst o'.ledger = o'.forest ∧ r.IsSorted o'.paths o'.ledger ∧
      ∀ n ∈ Forest.trees o'.ledger,
        n.firstPath o'.paths < o'.paths.length ∧ r.IsSorted o'.paths n.children := by
  have whole := (ofForest_eq_ok.1 taken).2
  obtain ⟨sieved, rules, nonempty, trims⟩ := (IsSieved.taken taken).foldl_filter
    (by rw [whole]; exact Forest.nil_notMem_pathsFrom t 0) qs
  refine ⟨map_ledger _, ?_⟩
  rw [filtered] at sieved rules nonempty trims
  obtain ⟨r', paths⟩ := o'
  rw [whole] at rules trims
  obtain rfl : r' = r := rules
  let g := Growth.insertAll r'.noting (paths.map (List.map Step.noted)) []
  have ledger : ledger ⟨r', paths⟩ = Forest.map Prod.fst g := rfl
  have placed : Path.IsPlaced (Path.firstWith paths) paths := sieved.isLineage.isPlaced
  have noted : Growth.AllNoted (fun c => ∃ p ∈ paths, c ∈ p) g :=
    Growth.AllNoted.insertAll (by simp [Growth.AllNoted, Forest.trees_nil])
      fun p hp s hs => ⟨p, hp, hs⟩
  have ranked : Growth.IsRanked r' (Path.firstWith paths) g := by
    refine Growth.IsRanked.insertAll plain trims nonempty placed (fun p hp s hs => ?_) .nil
      (by simp [Growth.AllNoted, Forest.trees_nil])
    obtain ⟨longer, hlonger, short⟩ := trims.exists_longer hp
    exact listed _ (Forest.mem_preorder_of_mem_path hlonger (short.subset hs))
  have full : ∀ n ∈ Forest.trees g, ∃ c, c ∈ n.data.1.2 := fun n hn =>
    (ranked.nodes n hn).own.imp fun _ h => h.1
  rw [ledger, Forest.trees_map]
  refine ⟨isSorted_of_precedes (fun n hn => full n (Forest.mem_trees_of_mem hn)) ranked.siblings,
    List.forall_mem_map.2 ?_⟩
  intro n hn
  constructor
  · obtain ⟨c, hc⟩ := full n hn
    obtain ⟨p, hp, hcp⟩ := noted n hn c hc
    refine List.findIdx_lt_length_of_exists ⟨p, hp, List.any_eq_true.2 ⟨c, hcp, ?_⟩⟩
    cases n
    exact List.any_eq_true.2 ⟨c, hc, beq_self_eq_true c.origin⟩
  · have below := (ranked.nodes n hn).children
    have sorted := isSorted_of_precedes
      (fun m hm => full m (Forest.mem_trees_of_mem_children hn hm)) below
    cases n
    exact sorted

/-- Numbers, the even before the odd. -/
def evenFirst : Rules Nat Nat where
  category n := n % 2
  same a b := a == b
  combine := Step.overlay
  unordered := [[0, 1]]
  ranking := [0, 1]

/-- The second tree with root 1 joins the first one past 2. -/
def oddFirst : Forest Nat :=
  [.branch 1 [.leaf 3, .leaf 5], .leaf 2, .branch 1 [.leaf 4, .leaf 3], .leaf 7, .leaf 6]

theorem isSorted_ledger_oddFirst :
    ∃ o o' : Outline Nat Nat, ofForest evenFirst oddFirst = .ok o ∧
      [Query.test (fun n => n != 5), .not (.exactly 6)].foldl Outline.filter o = o' ∧
      (Forest.map Prod.fst o'.ledger = o'.forest ∧ evenFirst.IsSorted o'.paths o'.ledger ∧
        ∀ n ∈ Forest.trees o'.ledger, n.firstPath o'.paths < o'.paths.length ∧
          evenFirst.IsSorted o'.paths n.children) ∧
      o'.forest = [.leaf 2, .branch 1 [.leaf 4, .leaf 3, .leaf 5], .leaf 7] := by
  have taken : ofForest evenFirst oddFirst = .ok ⟨evenFirst, Forest.paths oddFirst⟩ := rfl
  exact ⟨_, _, taken, rfl, isSorted_ledger taken rfl ⟨fun _ _ => beq_iff_eq, rfl⟩ (by decide),
    by decide⟩

end Ledger

end Outline

end WorldMarkup
