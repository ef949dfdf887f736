import WorldMarkup.Proofs.Tree.Growth
import WorldMarkup.Proofs.Tree.Paths
import WorldMarkup.Proofs.Tree.Restoring

/-!
Steps taken out of paths, and nodes taken out of a forest. A query that looks at one step at a
time marks a step by what it holds, so pruning drops the same steps wherever they lie. Main
statement: pruning the paths of a forest and growing them back gives what grows from the forest
whose marked nodes are replaced by their own children.
-/

set_option autoImplicit false
set_option relaxedAutoImplicit false

namespace WorldMarkup

variable {α : Type}

/-! ### Queries that look at one step at a time -/

namespace Query

mutual

/-- The query is made of tests, conjunctions, disjunctions and negations alone. -/
def IsLocal : Query α → Prop
  | .test _ => True
  | .all qs => AreLocal qs
  | .any qs => AreLocal qs
  | .not q => q.IsLocal
  | .sequence _ | .connected _ | .after _ _ | .before _ _ => False

/-- All the queries are made of tests, conjunctions, disjunctions and negations alone. -/
def AreLocal : List (Query α) → Prop
  | [] => True
  | q :: qs => q.IsLocal ∧ AreLocal qs

end

mutual

/-- Whether a query that looks at one step at a time marks a step that holds `d`. -/
def selects (d : α) : Query α → Bool
  | .test p => p d
  | .all qs => selectsAll d qs
  | .any qs => selectsAny d qs
  | .not q => !selects d q
  | .sequence _ | .connected _ | .after _ _ | .before _ _ => false

def selectsAll (d : α) : List (Query α) → Bool
  | [] => true
  | q :: qs => selects d q && selectsAll d qs

def selectsAny (d : α) : List (Query α) → Bool
  | [] => false
  | q :: qs => selects d q || selectsAny d qs

end

theorem meet_map (path : Path α) (f g : Step α → Bool) :
    meet (path.map f) (path.map g) = path.map (fun s => f s && g s) := by
  simp [meet, List.zipWith_map, List.zipWith_self]

theorem join_map (path : Path α) (f g : Step α → Bool) :
    join (path.map f) (path.map g) = path.map (fun s => f s || g s) := by
  simp [join, List.zipWith_map, List.zipWith_self]

mutual

theorem marks_of_isLocal (path : Path α) :
    ∀ {q : Query α}, q.IsLocal → q.marks path = path.map (fun s => q.selects s.data)
  | .test p, _ => by simp only [marks, selects]
  | .all qs, h => by
    have start : List.replicate path.length true = path.map (fun _ => true) := List.map_const'.symm
    rw [marks, start, foldl_meet_of_areLocal path h]
    simp [selects]
  | .any qs, h => by
    have start : List.replicate path.length false = path.map (fun _ => false) := List.map_const'.symm
    rw [marks, start, foldl_join_of_areLocal path h]
    simp [selects]
  | .not q, h => by
    have inner : q.marks path = path.map (fun s => q.selects s.data) := marks_of_isLocal path h
    simp [marks, selects, inner]

theorem foldl_meet_of_areLocal (path : Path α) :
    ∀ {qs : List (Query α)} {f : Step α → Bool}, AreLocal qs →
      (marksEach path qs).foldl meet (path.map f) =
        path.map (fun s => f s && selectsAll s.data qs)
  | [], f, _ => by simp [marksEach, selectsAll]
  | q :: qs, f, ⟨hq, hqs⟩ => by
    rw [marksEach, List.foldl_cons, marks_of_isLocal path hq, meet_map,
      foldl_meet_of_areLocal path hqs]
    simp [selectsAll, Bool.and_assoc]

theorem foldl_join_of_areLocal (path : Path α) :
    ∀ {qs : List (Query α)} {f : Step α → Bool}, AreLocal qs →
      (marksEach path qs).foldl join (path.map f) =
        path.map (fun s => f s || selectsAny s.data qs)
  | [], f, _ => by simp [marksEach, selectsAny]
  | q :: qs, f, ⟨hq, hqs⟩ => by
    rw [marksEach, List.foldl_cons, marks_of_isLocal path hq, join_map,
      foldl_join_of_areLocal path hqs]
    simp [selectsAny, Bool.or_assoc]

end

end Query

theorem Path.dropMarked_of_isLocal {q : Query α} (h : q.IsLocal) (p : Path α) :
    Path.dropMarked q p = List.filter (fun s => !q.selects s.data) p := by
  rw [Path.dropMarked, Query.marks_of_isLocal p h, List.zip_map_right, List.filterMap_map]
  induction p with
  | nil => rfl
  | cons s rest ih =>
    rw [List.zip_cons_cons, List.filterMap_cons, List.filter_cons, ih]
    cases hs : q.selects s.data <;> simp [hs]

/-! ### Nodes replaced by their children -/

mutual

def Node.splice (out : α → Bool) : Node α → Forest α
  | ⟨d, e, cs⟩ => if out d then Forest.splice out cs else [⟨d, e, Forest.splice out cs⟩]

/-- The forest without the nodes that hold what is to go, their children in their place. -/
def Forest.splice (out : α → Bool) : Forest α → Forest α
  | [] => []
  | n :: rest => n.splice out ++ Forest.splice out rest

end

namespace Growth

variable {order : List Category} {s s' : Step Tag}

theorem joins_congr {x x' : Step Tag} (held : s.data = s'.data) (there : x.data = x'.data) :
    joins (regrowth order) s x = joins (regrowth order) s' x' := by
  rw [joins_regrowth, joins_regrowth, held, there]

theorem passes_congr {x x' : Step Tag} (held : s.data = s'.data) (there : x.data = x'.data) :
    passes (regrowth order) s x = passes (regrowth order) s' x' := by
  rw [passes, passes, joins_congr held there, held, there]

theorem map_data_reverse (g : Growth Tag) :
    g.reverse.map (fun n => n.data.1) = (List.map Node.data (forest g)).reverse := by
  rw [data_forest, List.map_reverse]

/-- A fresh step joins the same sibling of two forests that differ in numbers alone. -/
theorem exists_meets_of_forest_eq {before after g : Growth Tag} {n : Node (Tag × Nat)}
    (alike : forest (before ++ n :: after) = forest g) (held : s.data = s'.data)
    (strange : ∀ y ∈ before ++ n :: after, y.data.2 ≠ s.origin)
    (strange' : ∀ y ∈ g, y.data.2 ≠ s'.origin)
    (h : Meets (regrowth order) s (after.reverse.map step) (step n) (before.reverse.map step)) :
    ∃ before' n' after', g = before' ++ n' :: after' ∧ forest before = forest before' ∧
      forest [n] = forest [n'] ∧ forest after = forest after' ∧
      Meets (regrowth order) s' (after'.reverse.map step) (step n')
        (before'.reverse.map step) := by
  have halves : List.map (Node.map Prod.fst) g =
      forest before ++ (n.map Prod.fst :: forest after) := by
    rw [← Forest.map_eq]
    exact alike.symm.trans (forest_append before (n :: after))
  obtain ⟨before', others, rfl, hbefore, hothers⟩ := List.map_eq_append_iff.1 halves
  obtain ⟨n', after', rfl, hn, hafter⟩ := List.map_eq_cons_iff.1 hothers
  have hbefore : forest before' = forest before := (Forest.map_eq _ _).trans hbefore
  have hafter : forest after' = forest after := (Forest.map_eq _ _).trans hafter
  refine ⟨before', n', after', rfl, hbefore.symm, congrArg (fun x => [x]) hn.symm, hafter.symm, ?_⟩
  have there : (step n).data = (step n').data := by
    have := congrArg Node.data hn.symm
    cases n
    cases n'
    exact this
  cases h with
  | twin own _ => exact absurd own (strange n (by simp))
  | alike _ joined passed =>
    refine .alike ?_ ((joins_congr held there).symm.trans joined) ?_
    · intro y hy
      obtain ⟨m, hm, rfl⟩ : ∃ m ∈ before' ++ n' :: after', step m = y := by
        simp only [List.mem_append, List.mem_cons, List.mem_map, List.mem_reverse] at hy ⊢
        grind
      exact strange' m hm
    · intro y hy
      obtain ⟨m, hm, rfl⟩ := List.mem_map.1 hy
      have among : m.data.1 ∈ after'.reverse.map (fun n => n.data.1) := List.mem_map_of_mem hm
      rw [map_data_reverse, hafter, ← map_data_reverse] at among
      obtain ⟨x, hx, same⟩ := List.mem_map.1 among
      have there : (step x).data = (step m).data := same
      rw [← passes_congr held there]
      exact passed _ (List.mem_map_of_mem hx)

theorem older_of_isNumberedBelow {bound : Nat} {g : Growth Tag}
    (older : Forest.IsNumberedBelow bound g) : ∀ n ∈ g, n.data.2 < bound := by
  rintro ⟨⟨t, number⟩, e, cs⟩ hn
  exact (isNumberedBelow_iff.1 older _ hn).1

/-- Paths below fresh steps that hold the same lay in the same, if they do so without the step. -/
theorem forest_insertAll_congr {paths paths' : List (Path Tag)} {g g' : Growth Tag}
    (alike : forest g = forest g') (held : s.data = s'.data) (carried : s.extra = s'.extra)
    (older : Forest.IsNumberedBelow s.origin g) (older' : Forest.IsNumberedBelow s'.origin g')
    (nonempty : paths ≠ []) (nonempty' : paths' ≠ [])
    (inside : ∀ h h' : Growth Tag, forest h = forest h' → Forest.IsNumberedBelow s.origin h →
      Forest.IsNumberedBelow s'.origin h' →
      forest (insertAll (regrowth []) paths h) = forest (insertAll (regrowth []) paths' h')) :
    forest (insertAll (regrowth []) (paths.map (s :: ·)) g) =
      forest (insertAll (regrowth []) (paths'.map (s' :: ·)) g') := by
  have strange : ∀ n ∈ g, n.data.2 ≠ s.origin :=
    fun n hn => Nat.ne_of_lt (older_of_isNumberedBelow older n hn)
  have strange' : ∀ n ∈ g', n.data.2 ≠ s'.origin :=
    fun n hn => Nat.ne_of_lt (older_of_isNumberedBelow older' n hn)
  rcases meets_or_isNew (regrowth []) s g with ⟨before, n, after, rfl, hmeets⟩ | hnew
  · obtain ⟨before', n', after', rfl, hbefore, hn, hafter, hmeets'⟩ :=
      exists_meets_of_forest_eq alike held strange strange' hmeets
    rw [insertAll_of_meets hmeets nonempty, insertAll_of_meets hmeets' nonempty', forest_replace,
      forest_replace, hbefore, hafter]
    have below := (isNumberedBelow_append.1 older).2.1
    have below' := (isNumberedBelow_append.1 older').2.1
    rcases n with ⟨⟨t, number⟩, e, cs⟩
    rcases n' with ⟨⟨t', number'⟩, e', cs'⟩
    simp only [forest_node, List.cons.injEq, Node.mk.injEq, and_true] at hn
    obtain ⟨rfl, rfl, hcs⟩ := hn
    have settled (o o' : Nat) : Step.settle ⟨t, e, o⟩ s = Step.settle ⟨t, e, o'⟩ s' := by
      simp only [Step.settle, held, carried]
    simp only [step, settled number number', inside cs cs' hcs below.2 below'.2]
  · have unfound := match?_eq_none.1 hnew.unmatched
    rw [List.map_map] at unfound
    have unfound' : (regrowth []).finds s'.data (g'.reverse.map (fun n => n.data.1)) = false := by
      rw [map_data_reverse, ← alike, ← map_data_reverse, ← held]
      exact unfound
    rw [insertAll_of_unfound Step.settle_self strange unfound
        (Rules.outranked_eq_false rfl _ _) nonempty,
      insertAll_of_unfound Step.settle_self strange' unfound'
        (Rules.outranked_eq_false rfl _ _) nonempty',
      forest_append, forest_append, alike, forest_node, forest_node, held, carried,
      inside [] [] rfl trivial trivial]

/-- The pruned paths of a forest lay in what the paths of the spliced forest lay in. -/
theorem forest_insertAll_splice (out : Tag → Bool) {t : Forest Tag} {first first' : Nat}
    {g g' : Growth Tag} (alike : forest g = forest g')
    (older : Forest.IsNumberedBelow first g) (older' : Forest.IsNumberedBelow first' g') :
    forest (insertAll (regrowth [])
        ((Forest.pathsFrom first t).map (List.filter (fun s => !out s.data))) g) =
      forest (insertAll (regrowth []) (Forest.pathsFrom first' (Forest.splice out t)) g') := by
  induction t using Forest.induction generalizing first first' g g' with
  | nil => exact alike
  | cons d e cs rest hcs hrest =>
    have bound : Forest.IsNumberedBelow (first + Node.size ⟨d, e, cs⟩)
        (insertAll (regrowth [])
          ((Node.paths first ⟨d, e, cs⟩).map (List.filter (fun s => !out s.data))) g) := by
      apply isNumberedBelow_insertAll _ (isNumberedBelow_mono (by omega) older)
      intro p hp s hs
      obtain ⟨q, hq, rfl⟩ := List.mem_map.1 hp
      have on : q ∈ Forest.pathsFrom first [⟨d, e, cs⟩] := by simpa [Forest.pathsFrom] using hq
      simpa [Forest.size] using (Forest.origin_bounds on (List.mem_filter.1 hs |>.1)).2
    have bound' (n : Forest Tag) : Forest.IsNumberedBelow (first' + Forest.size n)
        (insertAll (regrowth []) (Forest.pathsFrom first' n) g') := by
      apply isNumberedBelow_insertAll _ (isNumberedBelow_mono (by omega) older')
      exact fun p hp s hs => (Forest.origin_bounds hp hs).2
    rw [Forest.pathsFrom, List.map_append, insertAll_append, Forest.splice, Forest.pathsFrom_append,
      insertAll_append]
    refine hrest ?_ bound (bound' _)
    rw [Forest.paths_eq_rests, Node.splice, List.map_map]
    by_cases gone : out d = true
    · have dropped : List.filter (fun s => !out s.data) ∘ (⟨d, e, first⟩ :: ·) =
          List.filter (fun s : Step Tag => !out s.data) := by
        funext p
        simp [gone]
      rw [if_pos gone, dropped, insertAll_rests _ rfl]
      exact hcs alike (isNumberedBelow_mono (by omega) older) older'
    · have kept : List.filter (fun s => !out s.data) ∘ (⟨d, e, first⟩ :: ·) =
          (⟨d, e, first⟩ :: ·) ∘ List.filter (fun s : Step Tag => !out s.data) := by
        funext p
        simp [gone]
      rw [if_neg gone, kept, ← List.map_map, Forest.pathsFrom, Forest.pathsFrom, List.append_nil,
        Forest.paths_eq_rests]
      refine forest_insertAll_congr alike rfl rfl older older' ?_ ?_ (fun h h' same hb hb' => ?_)
      · simpa using Forest.rests_ne_nil _ cs
      · exact Forest.rests_ne_nil _ _
      · have plain : insertAll (regrowth []) (Forest.rests (first' + 1) (Forest.splice out cs)) h' =
            insertAll (regrowth []) (Forest.pathsFrom (first' + 1) (Forest.splice out cs)) h' := by
          simpa only [List.map_id] using insertAll_rests id rfl (first' + 1) _ h'
        rw [plain, insertAll_rests _ rfl]
        exact hcs same (isNumberedBelow_mono (Nat.le_succ _) hb)
          (isNumberedBelow_mono (Nat.le_succ _) hb')

end Growth

/-- Pruning the paths of a forest by a query that looks at one step at a time, and growing them
back, gives what grows from the forest whose marked nodes are replaced by their own children. -/
theorem WorldOutline.forest_prune {t : Forest Tag} {q : Query Tag} (steps : q.IsLocal)
    {o o' : WorldOutline} (taken : WorldOutline.ofForest t = .ok o)
    (spliced : WorldOutline.ofForest (Forest.splice q.selects t) = .ok o') :
    (o.prune q).forest = o'.forest := by
  obtain ⟨-, rfl⟩ := Outline.ofForest_eq_ok.1 taken
  obtain ⟨-, rfl⟩ := Outline.ofForest_eq_ok.1 spliced
  have dropped : Path.dropMarked q = List.filter (fun s => !q.selects s.data) :=
    funext (Path.dropMarked_of_isLocal steps)
  show Growth.forest (Growth.insertAll (Growth.regrowth []) (Path.prune q (Forest.paths t)) []) =
    Growth.forest (Growth.insertAll (Growth.regrowth []) (Forest.paths _) [])
  rw [Path.prune, dropped, Growth.insertAll_filter_nonempty, Forest.paths, Forest.paths]
  exact Growth.forest_insertAll_splice q.selects rfl trivial trivial

theorem WorldOutline.forest_prune_hallWithDoor :
    let q : Query Tag := .all [.test (fun d => d.category = .field), .not (.exactly .exported)]
    q.IsLocal ∧ ∃ o o', WorldOutline.ofForest hallWithDoor = .ok o ∧
      WorldOutline.ofForest (Forest.splice q.selects hallWithDoor) = .ok o' ∧
      (o.prune q).forest = o'.forest := by
  intro q
  have steps : q.IsLocal := ⟨trivial, trivial, trivial⟩
  have taken : WorldOutline.ofForest hallWithDoor = .ok ⟨worldRules, Forest.paths hallWithDoor⟩ :=
    Outline.ofForest_eq_ok.2 ⟨by decide, rfl⟩
  have spliced : WorldOutline.ofForest (Forest.splice q.selects hallWithDoor) =
      .ok ⟨worldRules, Forest.paths (Forest.splice q.selects hallWithDoor)⟩ :=
    Outline.ofForest_eq_ok.2 ⟨by decide, rfl⟩
  exact ⟨steps, _, _, taken, spliced, WorldOutline.forest_prune steps taken spliced⟩

end WorldMarkup
