import Mathlib.Data.List.Induction
import WorldMarkup.Proofs.Tree.Refolding
import WorldMarkup.Proofs.Tree.Sorting
import WorldMarkup.Proofs.Tree.Wrappers
import WorldMarkup.World.Chain

/-!
Choosing branches in a filtered document. What a conditional comes down to is told by the tags of
its branches, one for each thing they speak of, and a filter keeps all branches of a conditional
that a wanted path passes through. Main statement: such a conditional selects in the filtered
document what it selects in the whole one; any other that is kept has a single branch left.
-/

set_option autoImplicit false
set_option relaxedAutoImplicit false

namespace WorldMarkup

/-! ### Outcomes -/

/-- What a selection comes down to, whatever its branch holds. -/
inductive Outcome
  | statement (condition : String)
  | fallthrough
  | unresolved
  deriving DecidableEq

def Tag.condition : Tag → String
  | .statement s => s.condition
  | _ => ""

def Selection.outcome : Selection → Outcome
  | .statement b => .statement b.data.condition
  | .fallthrough _ => .fallthrough
  | .unresolved => .unresolved

/-- What a conditional comes down to under an evaluation of its conditions. -/
def Node.outcome (holds : String → Bool) (n : Node Tag) : Except DocumentError Outcome :=
  (n.select holds).map Selection.outcome

/-- What branches come down to, told by their tags; `otherwise` says whether a fallthrough has been
met. -/
def outcomeAmong (holds : String → Bool) (otherwise : Bool) :
    List Tag → Except DocumentError Outcome
  | [] => .ok (if otherwise then .fallthrough else .unresolved)
  | .statement s :: rest =>
    if holds s.condition then .ok (.statement s.condition) else outcomeAmong holds otherwise rest
  | .fallthrough :: rest => outcomeAmong holds true rest
  | t :: _ => .error (.strangerInChain t.label)

variable {holds : String → Bool} {otherwise : Bool} {d : Tag} {ds es : List Tag}

theorem outcome_selectAmong (t : Forest Tag) (b : Option (Node Tag)) :
    (selectAmong holds b t).map Selection.outcome =
      outcomeAmong holds b.isSome (List.map Node.data t) := by
  induction t generalizing b with
  | nil => cases b <;> rfl
  | cons n t ih =>
    rcases n with ⟨d, e, cs⟩
    cases d with
    | statement s =>
      have next := ih b
      rw [List.map_cons, outcomeAmong, selectAmong]
      simp only
      split
      · rfl
      · exact next
    | fallthrough =>
      have next := ih (b.or (some ⟨.fallthrough, e, cs⟩))
      rw [List.map_cons, outcomeAmong, selectAmong]
      simp only
      rw [next]
      cases b <;> rfl
    | _ => rfl

theorem Node.outcome_conditional {n : Node Tag} (conditional : n.data = .conditional) :
    n.outcome holds = outcomeAmong holds false (List.map Node.data n.children) := by
  rw [Node.outcome, Node.select, conditional]
  exact outcome_selectAmong n.children none

theorem Tag.Kin.label_eq {a b : Tag} (h : a.Kin b) : a.label = b.label := by
  rcases h with rfl | same
  · rfl
  · cases a <;> cases b <;> simp_all [Tag.same, Tag.label]

theorem outcomeAmong_cons_congr (h : ∀ otherwise, outcomeAmong holds otherwise ds =
    outcomeAmong holds otherwise es) :
    outcomeAmong holds otherwise (d :: ds) = outcomeAmong holds otherwise (d :: es) := by
  cases d <;> simp [outcomeAmong, h]

theorem outcomeAmong_cons_kin {e : Tag} (kin : d.Kin e) :
    outcomeAmong holds otherwise (d :: ds) = outcomeAmong holds otherwise (e :: ds) := by
  have label := kin.label_eq
  rcases kin with rfl | same
  · rfl
  · cases d <;> cases e <;> simp_all [Tag.same, outcomeAmong]

theorem outcomeAmong_congr (h : List.Forall₂ Tag.Kin ds es) :
    outcomeAmong holds otherwise ds = outcomeAmong holds otherwise es := by
  induction h generalizing otherwise with
  | nil => rfl
  | cons kin _ ih => rw [outcomeAmong_cons_kin kin, outcomeAmong_cons_congr fun _ => ih]

theorem outcomeAmong_idle {later : List Tag}
    (idle : (∃ s, d = .statement s ∧ holds s.condition = false) ∨
      d = .fallthrough ∧ otherwise = true) :
    outcomeAmong holds otherwise (ds ++ d :: later) =
      outcomeAmong holds otherwise (ds ++ later) := by
  induction ds generalizing otherwise with
  | nil =>
    rcases idle with ⟨s, rfl, fails⟩ | ⟨rfl, rfl⟩
    · simp [outcomeAmong, fails]
    · rfl
  | cons x ds ih =>
    cases x <;> simp only [List.cons_append, outcomeAmong]
    · rw [ih idle]
    · exact ih (idle.imp_right fun fallthrough => ⟨fallthrough.1, rfl⟩)

theorem outcomeAmong_repeated {later : List Tag} (known : ∃ x ∈ ds, x.Kin d) :
    outcomeAmong holds otherwise (ds ++ d :: later) =
      outcomeAmong holds otherwise (ds ++ later) := by
  induction ds generalizing otherwise with
  | nil => simp at known
  | cons x ds ih =>
    obtain ⟨y, hy, kin⟩ := known
    rcases List.mem_cons.1 hy with rfl | hy
    · rw [List.cons_append, List.cons_append, outcomeAmong_cons_kin kin, outcomeAmong_cons_kin kin]
      cases d with
      | statement s =>
        cases held : holds s.condition with
        | true => simp [outcomeAmong, held]
        | false =>
          simp only [outcomeAmong, held, Bool.false_eq_true, if_false]
          exact outcomeAmong_idle (.inl ⟨s, rfl, held⟩)
      | fallthrough => exact outcomeAmong_idle (.inr ⟨rfl, rfl⟩)
      | _ => rfl
    · exact outcomeAmong_cons_congr fun _ => ih ⟨y, hy, kin⟩

theorem outcomeAmong_firsts (steps : List (Step Tag))
    (agree : ∀ s ∈ steps, ∀ x ∈ steps, s.origin = x.origin → s = x) (later : List Tag) :
    outcomeAmong holds otherwise ((firsts Step.origin [] steps).map Step.data ++ later) =
      outcomeAmong holds otherwise (steps.map Step.data ++ later) := by
  induction steps using List.reverseRecOn generalizing later with
  | nil => rfl
  | append_singleton steps x ih =>
    have ih := ih fun s hs y hy => agree s (by simp [hs]) y (by simp [hy])
    rw [firsts_append, List.map_append, List.map_append, List.append_assoc, List.append_assoc,
      List.append_nil]
    by_cases known : x.origin ∈ (steps.map Step.origin).reverse
    · obtain ⟨y, hy, same⟩ := List.mem_map.1 (List.mem_reverse.1 known)
      have repeated : ∃ d ∈ steps.map Step.data, d.Kin x.data := by
        rw [← agree y (by simp [hy]) x (by simp) same]
        exact ⟨y.data, List.mem_map_of_mem hy, .refl _⟩
      rw [firsts, if_pos known]
      exact (ih later).trans (outcomeAmong_repeated repeated).symm
    · rw [firsts, if_neg known]
      exact ih (x.data :: later)

/-! ### Outcomes of what grows -/

namespace Growth

def tags (g : Growth Tag) : List Tag := List.map (fun n => n.data.1) g

theorem tags_append (g h : Growth Tag) : tags (g ++ h) = tags g ++ tags h := List.map_append

/-- What has grown comes down to what the steps laid in come down to, and every root speaks of what
its number stands for. -/
structure Told (label : Nat → Tag) (g : Growth Tag) (laid : List Tag) : Prop where
  labelled : ∀ n ∈ g, n.data.1.Kin (label n.data.2)
  agree : ∀ holds otherwise later, outcomeAmong holds otherwise (tags g ++ later) =
    outcomeAmong holds otherwise (laid ++ later)

variable {label : Nat → Tag} {g : Growth Tag} {laid : List Tag}

theorem told_nil (label : Nat → Tag) : Told label [] [] := ⟨by simp, fun _ _ _ => rfl⟩

theorem outcome_map {m : Node (Tag × Nat)} (conditional : m.data.1 = .conditional) :
    (m.map Prod.fst).outcome holds = outcomeAmong holds false (tags m.children) := by
  rcases m with ⟨⟨t, number⟩, e, cs⟩
  rw [Node.outcome_conditional conditional]
  exact congrArg _ (data_forest cs)

theorem Told.replace {before after : Growth Tag} {n : Node (Tag × Nat)}
    (h : Told label (before ++ n :: after) laid) (kin : n.data.1.Kin d) (e : Extra)
    (cs : Growth Tag) : Told label (before ++ ⟨(d, n.data.2), e, cs⟩ :: after) laid := by
  have labelled := h.labelled
  rw [List.forall_mem_append, List.forall_mem_cons] at labelled
  constructor
  · rw [List.forall_mem_append, List.forall_mem_cons]
    exact ⟨labelled.1, kin.symm.trans labelled.2.1, labelled.2.2⟩
  · intro holds otherwise later
    rw [← h.agree]
    refine outcomeAmong_congr (List.rel_append ?_ (Tag.kin_refl_all later))
    rw [tags_append, tags_append]
    exact List.rel_append (Tag.kin_refl_all _) (.cons kin.symm (Tag.kin_refl_all _))

theorem Told.again (h : Told label g laid) (known : ∃ n ∈ g, n.data.1.Kin d) :
    Told label g (laid ++ [d]) := by
  obtain ⟨n, hn, kin⟩ := known
  refine ⟨h.labelled, fun holds otherwise later => ?_⟩
  have known : ∃ x ∈ tags g, x.Kin d := ⟨n.data.1, List.mem_map_of_mem hn, kin⟩
  rw [List.append_assoc, ← h.agree holds otherwise ([d] ++ later)]
  exact (outcomeAmong_repeated known).symm

theorem Told.concat (h : Told label g laid) {s : Step Tag} (own : s.data.Kin (label s.origin))
    (e : Extra) (cs : Growth Tag) :
    Told label (g ++ [⟨(s.data, s.origin), e, cs⟩]) (laid ++ [s.data]) := by
  refine ⟨List.forall_mem_append.2 ⟨h.labelled, by simpa using own⟩, ?_⟩
  intro holds otherwise later
  rw [tags_append, List.append_assoc, List.append_assoc]
  exact h.agree holds otherwise ([s.data] ++ later)

theorem Told.insert (h : Told label g laid) {p : Path Tag}
    (labelled : ∀ s ∈ p, s.data.Kin (label s.origin)) :
    Told label (insert (regrowth []) p g) (laid ++ p.head?.toList.map Step.data) := by
  cases p with
  | nil => simpa [Growth.insert] using h
  | cons s rest =>
    have own : s.data.Kin (label s.origin) := labelled s (by simp)
    rcases @insert_shape label [] g h.labelled s own rest with
      ⟨before, n, after, d, e, rfl, kin, same, grown⟩ | ⟨-, before, after, rfl, grown, -, above⟩
    · rw [grown]
      exact (h.replace kin e _).again
        ⟨_, List.mem_append_right _ List.mem_cons_self, same.symm⟩
    · cases after with
      | nil =>
        rw [grown]
        simpa using h.concat own s.extra _
      | cons n after =>
        -- without ranks nothing stands behind a new root
        rcases n with ⟨⟨t, number⟩, e, cs⟩
        have ranked := above ⟨t, e, forest cs⟩ List.mem_cons_self
        simp [Rules.ranksBelow, Rules.rank?, regrowth] at ranked

theorem Told.insertAll (h : Told label g laid) {paths : List (Path Tag)}
    (labelled : ∀ p ∈ paths, ∀ s ∈ p, s.data.Kin (label s.origin)) :
    Told label (insertAll (regrowth []) paths g)
      (laid ++ (paths.filterMap List.head?).map Step.data) := by
  induction paths generalizing g laid with
  | nil => simpa [insertAll_nil] using h
  | cons p paths ih =>
    obtain ⟨own, others⟩ := List.forall_mem_cons.1 labelled
    have next := ih (h.insert own) others
    rw [insertAll_cons]
    cases p with
    | nil => simpa [List.filterMap_cons] using next
    | cons s rest => simpa [List.filterMap_cons] using next

end Growth

/-! ### The branches that paths take -/

namespace Path

/-- The steps that the paths take right below a number. -/
def stepsBelow {α : Type} (number : Nat) (paths : List (Path α)) : List (Step α) :=
  (paths.filterMap (after? number)).filterMap List.head?

theorem mem_of_mem_rests {α : Type} {k : Nat} {paths : List (Path α)} {rest : Path α}
    (h : rest ∈ paths.filterMap (after? k)) : ∀ s ∈ rest, s ∈ paths.flatten := by
  have lower {p : Path α} (h : after? k p = some rest) : ∀ s ∈ rest, s ∈ p := by
    induction p with
    | nil => simp [after?] at h
    | cons x p ih =>
      rw [after?] at h
      split at h
      · obtain rfl := Option.some.inj h
        exact fun s hs => List.mem_cons_of_mem _ hs
      · exact fun s hs => List.mem_cons_of_mem _ (ih h s hs)
  obtain ⟨p, hp, after⟩ := List.mem_filterMap.1 h
  exact fun s hs => List.mem_flatten.2 ⟨p, hp, lower after s hs⟩

theorem mem_of_mem_stepsBelow {α : Type} {k : Nat} {paths : List (Path α)} {s : Step α}
    (h : s ∈ stepsBelow k paths) : s ∈ paths.flatten := by
  obtain ⟨rest, hrest, head⟩ := List.mem_filterMap.1 h
  exact mem_of_mem_rests hrest s (List.mem_of_mem_head? head)

theorem eraseDups_stepsBelow {α : Type} (k : Nat) (paths : List (Path α)) :
    ((stepsBelow k paths).map Step.origin).eraseDups = branchesBelow k paths := by
  have next (p : Path α) : ((after? k p).bind List.head?).map Step.origin = below? k p := by
    induction p with
    | nil => rfl
    | cons s p ih =>
      cases p with
      | nil =>
        rw [after?, below?]
        · split <;> simp [after?]
        · simp
      | cons b p =>
        rw [after?, below?, ← ih]
        split <;> rfl
  rw [stepsBelow, branchesBelow, List.filterMap_filterMap, List.map_filterMap]
  exact congrArg List.eraseDups (List.filterMap_congr fun p _ => next p)

end Path

theorem map_firsts {β γ : Type} [DecidableEq γ] (key : β → γ) (l : List β) :
    (firsts key [] l).map key = (l.map key).eraseDups := by
  have same (seen : List γ) : (firsts key seen l).map key = firsts id seen (l.map key) := by
    induction l generalizing seen with
    | nil => rfl
    | cons x l ih =>
      rw [List.map_cons, firsts, firsts, List.map_append, ih]
      split <;> simp_all
  have once : (l.map key).eraseDupsBy (fun a b => id a == id b) = firsts id [] (l.map key) :=
    eraseDupsBy_eq_firsts (l.map key)
  rw [same, ← once]
  rfl

/-- What the branches of a growing tree come down to is told by the steps of its paths. -/
theorem outcomeAmong_routes (g : Growth Tag) (later : List Tag) :
    outcomeAmong holds otherwise
        (((Forest.routes g).filterMap List.head?).map Step.data ++ later) =
      outcomeAmong holds otherwise (Growth.tags g ++ later) := by
  have repeated (s : Step Tag) {below : List (Path Tag)} (nonempty : below ≠ [])
      {otherwise : Bool} (later : List Tag) : outcomeAmong holds otherwise
        (((below.map (s :: ·)).filterMap List.head?).map Step.data ++ later) =
      outcomeAmong holds otherwise (s.data :: later) := by
    induction below with
    | nil => exact absurd rfl nonempty
    | cons p below ih =>
      cases below with
      | nil => rfl
      | cons q below =>
        have again (later : List Tag) : outcomeAmong holds otherwise ([s.data] ++ s.data :: later) =
            outcomeAmong holds otherwise ([s.data] ++ later) :=
          outcomeAmong_repeated ⟨_, List.mem_singleton_self _, .refl _⟩
        exact (again _).trans (ih (by simp))
  induction g generalizing otherwise with
  | nil => rfl
  | cons n g ih =>
    rcases n with ⟨⟨t, number⟩, e, cs⟩
    rw [Forest.routes_cons, List.filterMap_append, List.map_append, List.append_assoc,
      repeated ⟨t, e, number⟩ (Forest.routesBelow_ne_nil cs)]
    exact outcomeAmong_cons_congr fun _ => ih

/-! ### Filtered documents -/

namespace Path

variable {α : Type} {isWrapper : α → Bool} {k : Nat}

theorem IsLineage.eq_of_origin {paths : List (Path α)} (h : IsLineage isWrapper paths)
    {s x : Step α} (hs : s ∈ paths.flatten) (hx : x ∈ paths.flatten)
    (same : s.origin = x.origin) : s = x := by
  obtain ⟨p, hp, hs⟩ := List.mem_flatten.1 hs
  obtain ⟨q, hq, hx⟩ := List.mem_flatten.1 hx
  obtain ⟨u, v, rfl⟩ := List.append_of_mem hs
  obtain ⟨u', v', rfl⟩ := List.append_of_mem hx
  exact (h.agree hp hq same).2

theorem Trims.flatten {paths kept : List (Path α)} (h : Trims kept paths) :
    ∀ s ∈ kept.flatten, s ∈ paths.flatten := by
  intro s hs
  obtain ⟨q, hq, hs⟩ := List.mem_flatten.1 hs
  obtain ⟨p, hp, short⟩ := h.exists_longer hq
  exact List.mem_flatten.2 ⟨p, hp, short.subset hs⟩

/-- Of paths that are kept the steps below a number come down to what they come down to before, if
all branches are kept in order. -/
theorem IsLineage.outcomeAmong_stepsBelow {paths kept : List (Path Tag)}
    {isWrapper : Tag → Bool} (h : IsLineage isWrapper paths) (trims : Trims kept paths)
    (same : branchesBelow k kept = branchesBelow k paths) :
    outcomeAmong holds otherwise ((stepsBelow k kept).map Step.data) =
      outcomeAmong holds otherwise ((stepsBelow k paths).map Step.data) := by
  have known : ∀ s ∈ stepsBelow k kept, s ∈ paths.flatten :=
    fun s hs => trims.flatten s (mem_of_mem_stepsBelow hs)
  have firsts : firsts Step.origin [] (stepsBelow k kept) =
      firsts Step.origin [] (stepsBelow k paths) := by
    have numbers : (firsts Step.origin [] (stepsBelow k kept)).map Step.origin =
        (firsts Step.origin [] (stepsBelow k paths)).map Step.origin := by
      rw [map_firsts, map_firsts, eraseDups_stepsBelow, eraseDups_stepsBelow, same]
    refine List.ext_getElem (by simpa using congrArg List.length numbers) fun i hi hi' => ?_
    refine h.eq_of_origin (known _ (mem_of_mem_firsts (List.getElem_mem hi)).1)
      (mem_of_mem_stepsBelow (mem_of_mem_firsts (List.getElem_mem hi')).1) ?_
    have placed := congrArg (fun l => l[i]?) numbers
    simpa [List.getElem?_eq_getElem hi, List.getElem?_eq_getElem hi'] using placed
  have once {steps : List (Step Tag)} (inside : ∀ s ∈ steps, s ∈ paths.flatten) :
      outcomeAmong holds otherwise ((WorldMarkup.firsts Step.origin [] steps).map Step.data) =
        outcomeAmong holds otherwise (steps.map Step.data) := by
    simpa using outcomeAmong_firsts steps
      (fun s hs x hx => h.eq_of_origin (inside s hs) (inside x hx)) []
  rw [← once known, ← once fun s => mem_of_mem_stepsBelow, firsts]

end Path

/-- Of paths that keep all branches of a conditional in order a conditional grows that comes down to
what it came down to before. -/
theorem Path.Trims.outcome_eq {t : Forest Tag} {kept : List (Path Tag)}
    (trims : Path.Trims kept (Forest.paths t))
    (faultless : Forest.fault? Tag.isWrapper t = none) {m n : Node (Tag × Nat)}
    (hn : n ∈ Forest.trees (Forest.numbered 0 t)) (data : n.data = m.data)
    (conditional : m.data.1 = .conditional) (rests : Growth.HoldsRests kept m)
    (branches : Path.branchesBelow m.data.2 kept = Path.branchesBelow m.data.2 (Forest.paths t)) :
    (m.map Prod.fst).outcome holds = (n.map Prod.fst).outcome holds := by
  have lineage := Forest.isLineage_paths faultless
  have labelled : ∀ p ∈ kept.filterMap (Path.after? m.data.2),
      ∀ s ∈ p, s.data.Kin (Path.label (Forest.paths t) s.origin) :=
    fun p hp s hs => (Forest.agree_pathsFrom 0 t).kin_label
      (trims.flatten s (Path.mem_of_mem_rests hp s hs))
  have grown := ((Growth.told_nil _).insertAll labelled).agree holds false []
  rw [← rests.children] at grown
  simp only [List.nil_append, List.append_nil] at grown
  have steps : Path.stepsBelow m.data.2 (Forest.paths t) =
      (Forest.routes n.children).filterMap List.head? := by
    rw [Path.stepsBelow, ← data, Forest.paths, Forest.after?_paths hn, Forest.routesBelow]
    split
    · rename_i leaf
      rw [List.isEmpty_iff.1 leaf]
      rfl
    · rfl
  calc (m.map Prod.fst).outcome holds
    _ = outcomeAmong holds false (Growth.tags m.children) := Growth.outcome_map conditional
    _ = _ := grown
    _ = outcomeAmong holds false ((Path.stepsBelow m.data.2 (Forest.paths t)).map Step.data) :=
      lineage.outcomeAmong_stepsBelow trims branches
    _ = outcomeAmong holds false (Growth.tags n.children) := by
      rw [steps]
      simpa using outcomeAmong_routes n.children []
    _ = (n.map Prod.fst).outcome holds :=
      (Growth.outcome_map (by rw [data]; exact conditional)).symm

theorem Path.IsLineage.single_of_idle {paths : List (Path Tag)} {wanted : Path Tag → Bool}
    (h : Path.IsLineage Tag.isWrapper paths) {s : Step Tag} (wraps : s.data.isWrapper = true)
    (hs : s ∈ (Path.filter Tag.isWrapper wanted paths).flatten)
    (idle : ∀ p ∈ paths, wanted p = true → s ∉ p) :
    (Growth.insertAll (Growth.regrowth []) ((Path.filter Tag.isWrapper wanted paths).filterMap
      (Path.after? s.origin)) []).length = 1 := by
  have kept : Path.IsLineage Tag.isWrapper (Path.filter Tag.isWrapper wanted paths) := h.filter
  obtain ⟨p, hp, hs'⟩ := List.mem_flatten.1 hs
  have own {p : Path Tag} (hp : p ∈ Path.filter Tag.isWrapper wanted paths)
      (passed : ∃ x ∈ p, x.origin = s.origin) : s ∈ p := by
    obtain ⟨x, hx, same⟩ := passed
    rwa [← kept.eq_of_origin (List.mem_flatten.2 ⟨p, hp, hx⟩) hs same]
  obtain ⟨above, x, rest, rfl, same, single⟩ := Path.filterMap_after?_single kept.nodup
    (fun p hp p' hp' passed passed' => h.eq_of_idle idle hp hp' (own hp passed) (own hp' passed'))
    hp ⟨s, hs', rfl⟩
  obtain rfl : x = s := kept.eq_of_origin (List.mem_flatten.2 ⟨_, hp, by simp⟩) hs same
  rw [single]
  cases rest with
  | nil =>
    -- no path ends in a wrapper
    have ends := kept.ended _ hp x (by simp)
    simp [wraps] at ends
  | cons b rest => simp [Growth.insertAll, Growth.insert, Growth.partner?, Growth.twin?,
      Growth.match?]

namespace WorldOutline

/-- A path that answers the query passes through the number. -/
def IsWanted (o : WorldOutline) (q : Query Tag) (number : Nat) : Prop :=
  ∃ p ∈ o.paths, q.hits p = true ∧ ∃ s ∈ p, s.origin = number

open WorldMarkup.Path in
/-- A conditional of a filtered document comes from one of the document. If a path that answers the
query passes through it, it comes down to what that one comes down to; else it has a single branch
left. -/
theorem outcome_filter {t : Forest Tag} {o : WorldOutline} (taken : WorldOutline.ofForest t = .ok o)
    (q : Query Tag) {m : Node (Tag × Nat)}
    (hm : m ∈ Forest.trees (Growth.ofPaths o.rules (o.filter q).paths))
    (conditional : m.data.1 = .conditional) :
    ∃ n ∈ Forest.trees (Forest.numbered 0 t), n.data = m.data ∧
      (o.IsWanted q m.data.2 → ∀ holds,
        (m.map Prod.fst).outcome holds = (n.map Prod.fst).outcome holds) ∧
      (¬ o.IsWanted q m.data.2 → m.children.length = 1) := by
  obtain ⟨faultless, rfl⟩ := Outline.ofForest_eq_ok.1 taken
  have lineage := Forest.isLineage_paths faultless
  have filtered : IsFiltered worldRules.isWrapper q.hits (Forest.paths t)
      (Path.filter worldRules.isWrapper q.hits (Forest.paths t)) := lineage.isFiltered
  have trims := trims_filter worldRules.isWrapper q.hits (Forest.paths t)
  have wrapper : m.data.1.isWrapper = true := by
    rw [conditional]
    rfl
  have nonempty : [] ∉ Path.filter worldRules.isWrapper q.hits (Forest.paths t) := by
    intro none
    rcases filtered.others [] none with wanted | ⟨p, -, -, w, b, -, stands⟩
    · exact Forest.nil_notMem_pathsFrom t 0 (List.mem_filter.1 wanted).1
    · simpa using stands.mem
  rcases Growth.wrappers_insertAll trims nonempty (g := []) trivial hm wrapper with
    old | ⟨⟨n, hn, data⟩, rests⟩
  · simp [Forest.trees_nil] at old
  obtain ⟨s, hs, own⟩ := rests.step
  obtain ⟨tag, number⟩ := Prod.mk.inj own
  have wraps : s.data.isWrapper = true := by
    rw [tag]
    exact wrapper
  refine ⟨n, hn, data, ?_, ?_⟩
  · rintro ⟨p, hp, hits, x, hx, same⟩ holds
    obtain rfl : x = s := lineage.eq_of_origin (List.mem_flatten.2 ⟨p, hp, hx⟩)
      (trims.flatten s hs) (same.trans number.symm)
    have branches := filtered.branches x wraps ⟨p, hp, hits, hx⟩
    rw [number] at branches
    exact trims.outcome_eq faultless hn data conditional rests branches
  · intro idle
    rw [rests.children, ← number]
    exact lineage.single_of_idle wraps hs fun p hp hits hs => idle ⟨p, hp, hits, s, hs, number⟩

/-- In the hall the way out by night is kept, and the conditional keeps its fallthrough. -/
theorem outcome_filter_hallWithDoor :
    ∃ (o : WorldOutline) (m n : Node (Tag × Nat)),
      WorldOutline.ofForest hallWithDoor = .ok o ∧
      m ∈ Forest.trees (Growth.ofPaths o.rules (o.filter (.exactly (.exit "out" "yard"))).paths) ∧
      n ∈ Forest.trees (Forest.numbered 0 hallWithDoor) ∧ n.data = m.data ∧
      ∀ holds, (m.map Prod.fst).outcome holds = (n.map Prod.fst).outcome holds := by
  have taken : WorldOutline.ofForest hallWithDoor = .ok ⟨worldRules, Forest.paths hallWithDoor⟩ :=
    Outline.ofForest_eq_ok.2 ⟨by decide, rfl⟩
  let m : Node (Tag × Nat) := ⟨(.conditional, 4), {},
    [⟨(.onCondition "night", 5), {}, [⟨(.exit "out" "yard", 6), {}, []⟩]⟩,
      ⟨(.fallthrough, 7), {}, []⟩]⟩
  have hm : m ∈ Forest.trees (Growth.ofPaths worldRules (Outline.filter
      ⟨worldRules, Forest.paths hallWithDoor⟩ (.exactly (.exit "out" "yard"))).paths) := by
    decide
  obtain ⟨n, hn, data, wanted, -⟩ := outcome_filter taken (.exactly (.exit "out" "yard")) hm rfl
  exact ⟨_, m, n, taken, hm, hn, data, wanted (by unfold IsWanted; decide)⟩

/-- A description in which something is removed, and beside it what is there by rain or by night. -/
def removedBesideChoice : Forest Tag :=
  [.branch (.room "hall")
    [.branch (.field .description)
      [.branch .remove
        [.leaf (.text "old"),
          .branch .conditional
            [.branch (.onCondition "rain") [.leaf (.text "wet")],
              .branch (.onCondition "night") [.leaf (.text "dark")]]]]]]

/-- The conditional stands in for a branch of the removal, and loses a branch of its own. -/
theorem outcome_filter_removedBesideChoice :
    ∃ (o : WorldOutline) (m n : Node (Tag × Nat)) (holds : String → Bool),
      WorldOutline.ofForest removedBesideChoice = .ok o ∧
      m ∈ Forest.trees (Growth.ofPaths o.rules (o.filter (.exactly (.text "old"))).paths) ∧
      m.data.1 = .conditional ∧
      n ∈ Forest.trees (Forest.numbered 0 removedBesideChoice) ∧ n.data = m.data ∧
      (m.map Prod.fst).outcome holds = .ok .unresolved ∧
      (n.map Prod.fst).outcome holds = .ok (.statement "night") := by
  let rain : Node (Tag × Nat) := ⟨(.onCondition "rain", 5), {}, [⟨(.text "wet", 6), {}, []⟩]⟩
  let night : Node (Tag × Nat) := ⟨(.onCondition "night", 7), {}, [⟨(.text "dark", 8), {}, []⟩]⟩
  exact ⟨⟨worldRules, Forest.paths removedBesideChoice⟩, ⟨(.conditional, 4), {}, [rain]⟩,
    ⟨(.conditional, 4), {}, [rain, night]⟩, fun condition => condition == "night",
    Outline.ofForest_eq_ok.2 ⟨by decide, rfl⟩, by decide, rfl, by decide, rfl, by decide, by decide⟩

end WorldOutline

end WorldMarkup
