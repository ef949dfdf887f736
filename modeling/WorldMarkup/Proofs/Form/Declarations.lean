import WorldMarkup.Proofs.Form.Overlaying
import WorldMarkup.Proofs.Form.Reachable
import WorldMarkup.Proofs.Tree.Refolding

/-!
Declarations of a form: imports and exports. Below what they declare stand fields, items and
entities, whose siblings may stand in any order, and inline content, which never joins. Main
statement: growing the declarations of two forms together lays those of one upon those of the
other, and gives declarations again.
-/

set_option autoImplicit false
set_option relaxedAutoImplicit false

namespace WorldMarkup

namespace Tag

variable {a b t : Tag} {above : Option Tag}

/-- Whether what stands below the tag may stand in any order. -/
def opens (t : Tag) : Bool :=
  match t.category with
  | .container | .entity | .listItem | .imported | .exported => true
  | _ => false

/-- Whether nothing that stands below the tag joins anything. -/
def stills (t : Tag) : Bool :=
  match t.category with
  | .field | .inline => true
  | _ => false

/-- Where siblings may stand in any order they are of such a category, and where nothing joins
they are inline content or wrappers. -/
def StandsOpenly (above : Option Tag) (t : Tag) : Prop :=
  ((∀ a ∈ above, a.opens = true) → t.category ∈ Category.unordered) ∧
    ∀ a ∈ above, a.stills = true → t.category = .inline ∨ t.isWrapper = true

/-- What stands below the tag is laid upon what stands below another. -/
def Joinable (above : Option Tag) : Prop :=
  (∀ a ∈ above, a.opens = true) ∨ ∃ a ∈ above, a.stills = true

theorem Kin.opens_eq (h : a.Kin b) : a.opens = b.opens := by
  simp only [opens, h.category_eq]

theorem Kin.stills_eq (h : a.Kin b) : a.stills = b.stills := by
  simp only [stills, h.category_eq]

theorem respects_standsOpenly : (Standing.under StandsOpenly).Respects where
  below _ := rfl
  allows := by
    intro scope a b t kin allowed
    obtain ⟨opened, still⟩ : StandsOpenly (some a) t := allowed
    show StandsOpenly (some b) t
    simp only [StandsOpenly, Option.mem_def, Option.some.injEq, forall_eq'] at opened still ⊢
    rw [← kin.opens_eq, ← kin.stills_eq]
    exact ⟨opened, still⟩

theorem unordered_of_allows (opened : a.opens = true) (lifted : t ≠ .inherited)
    (allowed : a.allows t = true) : t.category ∈ Category.unordered := by
  cases a with
  | asset key => cases t <;> simp_all [allows, category, Category.unordered]
  | entity e =>
    have allowed : t.inEntity e.kind = true := allowed
    cases t <;> first
      | exact absurd rfl lifted
      | (simp [inEntity] at allowed; done)
      | simp [category, Category.unordered]
  | imported source | exported => cases t <;> simp_all [allows, entity?, category, Category.unordered]
  | exit | position | pronouns => simp [allows] at allowed
  | _ => simp [opens, category] at opened

theorem still_of_allows (stilled : a.stills = true) (allowed : a.allows t = true) :
    t.category = .inline ∨ t.isWrapper = true := by
  cases a with
  | field f | link target =>
    cases t <;> simp_all [allows, isInlineContent, category, isWrapper, isText, text?]
  | text | lineBreak | space => simp [allows] at allowed
  | _ => simp [stills, category] at stilled

theorem StandsLifted.openly (h : StandsLifted (some a) t) : StandsOpenly (some a) t := by
  obtain ⟨lifted, decides⟩ := h
  obtain ⟨allowed, -⟩ := decides a rfl
  simp only [StandsOpenly, Option.mem_def, Option.some.injEq, forall_eq']
  constructor
  · intro opened
    apply unordered_of_allows opened lifted (allowed _)
    cases a <;> first | rfl | simp [opens, category] at opened
  · intro stilled
    apply still_of_allows stilled (allowed _)
    cases a <;> first | rfl | simp [stills, category] at stilled

theorem Joinable.below (h : Joinable above) (stands : StandsOpenly above t)
    (plain : t.isWrapper = false) : Joinable (some t) := by
  simp only [Joinable, Option.mem_def, Option.some.injEq, forall_eq', exists_eq_left']
  have kept : t.category ∈ Category.unordered ∨ t.category = .inline := by
    rcases h with opened | ⟨a, ha, stilled⟩
    · exact .inl (stands.1 opened)
    · rcases stands.2 a ha stilled with inline | wrapper
      · exact .inr inline
      · rw [wrapper] at plain
        simp at plain
  cases t <;> simp_all [opens, stills, category, Category.unordered, isWrapper]

theorem same_eq_false_of_still (h : a.category = .inline ∨ a.isWrapper = true) :
    a.same b = false := by
  cases a <;> cases b <;> simp_all [same, category, isWrapper]

theorem finds_eq_any (h : Joinable above) (ht : StandsOpenly above t) {backward : List Tag}
    (hb : ∀ x ∈ backward, StandsOpenly above x) :
    worldRules.finds t backward = backward.any (fun x => x.same t) := by
  induction backward with
  | nil => rfl
  | cons x rest ih =>
    obtain ⟨own, others⟩ := List.forall_mem_cons.1 hb
    have joins : (!t.isWrapper && !x.isWrapper && x.same t) = x.same t := by
      cases same : x.same t with
      | false => simp
      | true => simp [isWrapper_of_same same, isWrapper_of_same (same_self_of_same same)]
    have step : worldRules.finds t (x :: rest) = (x.same t ||
        worldRules.independent x.category t.category && worldRules.finds t rest) := by
      rw [← joins]
      rfl
    rw [step, ih others, List.any_cons]
    rcases h with opened | ⟨a, ha, stilled⟩
    · have free : worldRules.independent x.category t.category = true := by
        simp [Rules.independent, worldRules, own.1 opened, ht.1 opened]
      rw [free, Bool.true_and]
    · have none : rest.any (fun y => y.same t) = false := by
        rw [List.any_eq_false]
        intro y hy
        simp [same_eq_false_of_still ((others y hy).2 a ha stilled)]
      rw [none, Bool.and_false]

end Tag

/-! ### Laying a forest upon what has grown -/

namespace Forest

variable {σ : Type} {R : Standing σ} {scope : σ} {t u : Forest Tag} {n : Node Tag}

theorem Stands.of_kin (hR : R.Respects) {a b : Tag} (kin : a.Kin b)
    (h : Forest.Stands R (R.below scope a) t) : Forest.Stands R (R.below scope b) t := by
  rw [stands_iff] at h ⊢
  intro n hn
  rcases n with ⟨d, e, cs⟩
  obtain ⟨own, below⟩ := h _ hn
  rw [hR.below kin] at below
  exact ⟨hR.allows kin own, below⟩

theorem stands_node_upon (hR : R.Respects)
    (below : ∀ c, Forest.Stands R (R.below scope n.data) c →
      Forest.Stands R (R.below scope n.data) (Forest.upon n.children c))
    (hn : n.Stands R scope) (ht : Forest.Stands R scope t) :
    Forest.Stands R scope (n.upon t) := by
  rw [stands_iff] at ht ⊢
  intro x hx
  rcases mem_node_upon hx with hx | rfl | ⟨y, hy, same, rfl⟩
  · exact ht x hx
  · exact hn
  · have kin : y.data.Kin n.data := .inr same
    have own : R.allows scope n.data := by
      cases n
      exact hn.1
    have inside : Forest.Stands R (R.below scope y.data) y.children := by
      have := ht y hy
      cases y
      exact this.2
    exact ⟨own, below _ (inside.of_kin hR kin)⟩

theorem stands_upon (hR : R.Respects) (ht : Forest.Stands R scope t)
    (hu : Forest.Stands R scope u) : Forest.Stands R scope (Forest.upon t u) := by
  induction t using Forest.induction generalizing scope u with
  | nil => exact hu
  | cons d e cs rest hcs hrest =>
    obtain ⟨⟨own, below⟩, beside⟩ := ht
    rw [upon_cons]
    exact hrest beside (stands_node_upon hR (fun c hc => hcs below hc) ⟨own, below⟩ hu)

variable {above : Option Tag}

theorem IsKeyed.apart (h : IsKeyed (t ++ n :: u)) : ∀ x ∈ t, x.data.same n.data = false := by
  induction t with
  | nil => simp
  | cons y t ih =>
    obtain ⟨-, own, beside⟩ := h
    exact List.forall_mem_cons.2 ⟨own n (by simp), ih beside⟩

open Tag in
theorem isKeyed_of_settled (joinable : Joinable above) {backward : List Tag}
    (settled : SettledAfter worldRules backward t)
    (stands : Forest.Stands (.under StandsOpenly) above t)
    (before : ∀ x ∈ backward, StandsOpenly above x) :
    IsKeyed t ∧ ∀ x ∈ backward, ∀ n ∈ t, x.same n.data = false := by
  induction t using Forest.induction generalizing above backward with
  | nil => exact ⟨trivial, by simp⟩
  | cons d e cs rest hcs hrest =>
    obtain ⟨unfound, below, beside⟩ := settled
    obtain ⟨⟨own, inside⟩, others⟩ := stands
    have apart : ∀ x ∈ backward, x.same d = false := by
      have none : worldRules.finds d backward = false := unfound
      rw [finds_eq_any joinable own before, List.any_eq_false] at none
      intro x hx
      simpa using none x hx
    obtain ⟨keyed, later⟩ := hrest joinable beside others (List.forall_mem_cons.2 ⟨own, before⟩)
    obtain ⟨first, later⟩ := List.forall_mem_cons.1 later
    refine ⟨⟨?_, first, keyed⟩, ?_⟩
    · intro plain
      exact (hcs (joinable.below own plain) below inside (by simp)).1
    · intro x hx
      exact List.forall_mem_cons.2 ⟨apart x hx, later x hx⟩

end Forest

namespace Forest

variable {t u : Forest Tag} {n : Node Tag}

theorem IsKeyed.node (h : IsKeyed (t ++ n :: u)) (plain : n.data.isWrapper = false) :
    IsKeyed n.children := by
  induction t with
  | nil =>
    cases n
    exact h.1 plain
  | cons y t ih => exact ih h.2.2

theorem SettledAfter.nodes {backward : List Tag} (h : SettledAfter worldRules backward t) :
    ∀ n ∈ t, n.Settled worldRules := by
  induction t generalizing backward with
  | nil => simp
  | cons n t ih => exact List.forall_mem_cons.2 ⟨h.2.1, ih h.2.2⟩

end Forest

namespace Growth

open Tag

variable {above : Option Tag}

section Laying

variable {g : Growth Tag} {first : Nat} {d : Tag} {e : Extra} {cs : Forest Tag}

theorem forest_insertAll_joined {before after : Growth Tag} {n : Node (Tag × Nat)}
    {paths : List (Path Tag)}
    (meets : Meets (regrowth []) ⟨d, e, first⟩ (after.reverse.map step) (step n)
      (before.reverse.map step))
    (same : n.data.1.same d = true) (keyed : Forest.IsKeyed (forest (before ++ n :: after)))
    (unmarked : e.inherited = false) (nonempty : paths ≠ [])
    (below : forest (insertAll (regrowth []) paths n.children) =
      Forest.upon cs (forest n.children)) :
    forest (insertAll (regrowth []) (paths.map (⟨d, e, first⟩ :: ·)) (before ++ n :: after)) =
      Node.upon ⟨d, e, cs⟩ (forest (before ++ n :: after)) := by
  rw [insertAll_of_meets meets nonempty, forest_replace, forest_replace]
  rw [forest_replace] at keyed
  have apart : ∀ x ∈ forest before, x.data.same d = false := by
    intro x hx
    have := keyed.apart x hx
    rwa [← (Kin.same_eq (.inr same) x.data)]
  rw [Forest.node_upon_append apart, Forest.node_upon_same same]
  have data : (Step.settle (step n) ⟨d, e, first⟩).1 = d := by simp [Step.settle, unmarked]
  have extra : (Step.settle (step n) ⟨d, e, first⟩).2 = { id := n.extra.id.or e.id } := by
    simp [Step.settle, unmarked, step]
  rw [Node.joined, data, extra, below]

theorem forest_insertAll_beside (joinable : Joinable above)
    (hg : Forest.Stands (.under StandsOpenly) above g.forest) (own : StandsOpenly above d)
    (settled : Forest.Settled worldRules cs) (older : ∀ n ∈ g, n.data.2 ≠ first)
    (unfound : worldRules.finds d (g.reverse.map (fun n => n.data.1)) = false) :
    forest (insertAll (regrowth []) ((Forest.rests (first + 1) cs).map (⟨d, e, first⟩ :: ·)) g) =
      Node.upon ⟨d, e, cs⟩ g.forest := by
  have inside : insertAll (regrowth []) (Forest.rests (first + 1) cs) [] =
      Forest.numbered (first + 1) cs := by
    cases cs with
    | nil => rfl
    | cons n cs =>
      exact insertAll_pathsFrom (r := regrowth []) Step.settle_self rfl settled (by simp)
  have standing : ∀ x ∈ g.reverse.map (fun n => n.data.1), StandsOpenly above x := by
    rw [List.map_reverse, ← data_forest]
    intro x hx
    obtain ⟨n, hn, rfl⟩ := List.mem_map.1 (List.mem_reverse.1 hx)
    have := Forest.stands_iff.1 hg n hn
    cases n
    exact this.1
  have apart : ∀ x ∈ g.forest, x.data.same d = false := by
    rw [finds_eq_any joinable own standing, List.any_eq_false] at unfound
    intro x hx
    simpa using unfound x.data (by
      rw [List.map_reverse, ← data_forest, List.mem_reverse]
      exact List.mem_map_of_mem hx)
  rw [insertAll_of_unfound (r := regrowth []) Step.settle_self (s := ⟨d, e, first⟩) older unfound
    (Rules.outranked_eq_false rfl _ _) (Forest.rests_ne_nil _ _), inside, Growth.forest_append,
    Growth.forest_node, Forest.forest_numbered, Forest.node_upon_new apart]

/-- The paths of a tree lay it upon the forest that has grown. -/
theorem forest_insertAll_paths (joinable : Joinable above)
    (hg : Forest.Stands (.under StandsOpenly) above g.forest) (keyed : Forest.IsKeyed g.forest)
    (older : Forest.IsNumberedBelow first g) (own : StandsOpenly above d)
    (settled : Forest.Settled worldRules cs) (unmarked : e.inherited = false)
    (below : ∀ n ∈ g, n.data.1.same d = true →
      forest (insertAll (regrowth []) (Forest.rests (first + 1) cs) n.children) =
        Forest.upon cs (forest n.children)) :
    forest (insertAll (regrowth []) (Node.paths first ⟨d, e, cs⟩) g) =
      Node.upon ⟨d, e, cs⟩ g.forest := by
  have numbers : ∀ n ∈ g, n.data.2 ≠ first := by
    intro n hn
    have := isNumberedBelow_iff.1 older n hn
    rcases n with ⟨⟨t, number⟩, e', cs'⟩
    exact Nat.ne_of_lt this.1
  rw [Forest.paths_eq_rests]
  -- the number is new, so the root joins a node only if they speak of the same thing
  rcases meets_or_isNew (regrowth []) ⟨d, e, first⟩ g with ⟨before, n, after, rfl, meets⟩ | new
  · have same : n.data.1.same d = true := by
      cases meets with
      | twin own _ => exact absurd own (numbers n (by simp))
      | alike _ joined _ =>
        rw [joins_regrowth, Bool.and_eq_true] at joined
        exact joined.2
    exact forest_insertAll_joined meets same keyed unmarked (Forest.rests_ne_nil _ _)
      (below n (by simp) same)
  · have unfound : worldRules.finds d (g.reverse.map (fun n => n.data.1)) = false := by
      have := match?_eq_none.1 new.unmatched
      rwa [List.map_map] at this
    exact forest_insertAll_beside joinable hg own settled numbers unfound

end Laying

/-- The paths of a forest lay it upon the forest that has grown. -/
theorem forest_insertAll_pathsFrom {t : Forest Tag} {g : Growth Tag} {first : Nat}
    (joinable : Joinable above) (hg : Forest.Stands (.under StandsOpenly) above g.forest)
    (keyed : Forest.IsKeyed g.forest) (older : Forest.IsNumberedBelow first g)
    (ht : Forest.Stands (.under StandsOpenly) above t) (settled : ∀ n ∈ t, n.Settled worldRules)
    (unmarked : Forest.IsLocal t) :
    forest (insertAll (regrowth []) (Forest.pathsFrom first t) g) = Forest.upon t g.forest := by
  induction t using Forest.induction generalizing above g first with
  | nil => rfl
  | cons d e cs rest hcs hrest =>
    obtain ⟨⟨own, below⟩, beside⟩ := ht
    obtain ⟨inside, others⟩ := List.forall_mem_cons.1 settled
    obtain ⟨⟨-, unmarked⟩, unmarkedBelow, unmarkedBeside⟩ := Forest.isLocal_cons.1 unmarked
    have keyedBelow (plain : d.isWrapper = false) : Forest.IsKeyed cs :=
      (Forest.isKeyed_of_settled (joinable.below own plain) inside below (by simp)).1
    have laidBelow : ∀ n ∈ g, n.data.1.same d = true →
        forest (insertAll (regrowth []) (Forest.rests (first + 1) cs) n.children) =
          Forest.upon cs (forest n.children) := by
      intro n hn same
      have plain : d.isWrapper = false := isWrapper_of_same (same_self_of_same same)
      obtain ⟨before, after, rfl⟩ := List.append_of_mem hn
      have numbers := (isNumberedBelow_append.1 older).2.1
      rw [forest_replace] at hg keyed
      have stands := (Forest.stands_append.1 hg).2.1.2
      have apart := keyed.node (isWrapper_of_same same)
      rcases n with ⟨⟨t, number⟩, e', cs'⟩
      have deep : Forest.IsNumberedBelow (first + 1) cs' :=
        isNumberedBelow_mono (by omega) numbers.2
      cases cs with
      | nil => rfl
      | cons m cs =>
        exact hcs (joinable.below own plain)
          (stands.of_kin respects_standsOpenly (.inr same)) apart deep below
          inside.nodes unmarkedBelow
    have node := forest_insertAll_paths joinable hg keyed older own inside unmarked laidBelow
    have bound : Forest.IsNumberedBelow (first + Node.size ⟨d, e, cs⟩)
        (insertAll (regrowth []) (Node.paths first ⟨d, e, cs⟩) g) := by
      apply isNumberedBelow_insertAll _ (isNumberedBelow_mono (by omega) older)
      intro p hp s hs
      have on : p ∈ Forest.pathsFrom first [⟨d, e, cs⟩] := by simpa [Forest.pathsFrom] using hp
      simpa [Forest.size] using (Forest.origin_bounds on hs).2
    rw [Forest.pathsFrom, insertAll_append, Forest.upon_cons, ← node]
    apply hrest joinable _ _ bound beside others unmarkedBeside
    · rw [node]
      exact Forest.stands_node_upon respects_standsOpenly
        (fun c hc => Forest.stands_upon respects_standsOpenly below hc) ⟨own, below⟩ hg
    · rw [node]
      exact Forest.isKeyed_node_upon (fun plain c hc => Forest.isKeyed_upon (keyedBelow plain) hc)
        keyedBelow keyed

end Growth

/-! ### Declarations -/

namespace Forest

/-- Declarations as they stand in a form: they can be taken apart and grown again, and they stand
openly, without marks of inherited content. -/
structure IsDeclared (t : Forest Tag) : Prop where
  settled : Forest.Settled worldRules t
  stands : Forest.Stands (.under Tag.StandsOpenly) none t
  faultless : Forest.fault? Tag.isWrapper t = none
  unmarked : Forest.IsLocal t

variable {t u : Forest Tag}

theorem isDeclared_nil : IsDeclared [] := ⟨trivial, trivial, rfl, isLocal_nil⟩

theorem IsDeclared.isKeyed (h : IsDeclared t) : IsKeyed t :=
  (isKeyed_of_settled (.inl (by simp)) h.settled h.stands (by simp)).1

theorem ofPaths_append (ht : IsDeclared t) (hu : IsDeclared u) :
    Forest.ofPaths worldRules (Forest.paths (t ++ u)) = Forest.upon u t := by
  have first : Growth.insertAll (Growth.regrowth []) (Forest.pathsFrom 0 t) [] =
      Forest.numbered 0 t :=
    Growth.insertAll_pathsFrom (r := Growth.regrowth []) Step.settle_self rfl ht.settled (by simp)
  have grown := Forest.forest_numbered 0 t
  show Growth.forest (Growth.insertAll (Growth.regrowth []) (Forest.paths (t ++ u)) []) = _
  rw [Forest.paths, pathsFrom_append, Growth.insertAll_append, first,
    Growth.forest_insertAll_pathsFrom (.inl (by simp)) _ _ (isNumberedBelow_numbered t 0)
      hu.stands hu.settled.nodes hu.unmarked, grown]
  · rw [grown]
    exact ht.stands
  · rw [grown]
    exact ht.isKeyed

theorem isDeclared_ofPaths {paths : List (Path Tag)} (agree : Path.Agree paths)
    (stands : ∀ p ∈ paths, Path.Stands (.under Tag.StandsOpenly) none p)
    (faultless : ∀ p ∈ paths, Path.fault? Tag.isWrapper p = none)
    (steps : ∀ p ∈ paths, ∀ s ∈ p, s.data ≠ .inherited ∧ s.extra.inherited = false) :
    IsDeclared (Forest.ofPaths worldRules paths) where
  settled := settled_ofPaths agree
  stands := by
    show Forest.Stands _ none
      (Growth.forest (Growth.insertAll (Growth.regrowth []) paths []))
    exact Growth.stands_insertAll Tag.respects_standsOpenly agree stands
  faultless := faultless_ofPaths agree faultless
  unmarked := isLocal_ofPaths steps

theorem faultless_append (ht : IsDeclared t) (hu : IsDeclared u) :
    Forest.fault? Tag.isWrapper (t ++ u) = none :=
  faultAt?_eq_none_iff.2 (List.forall_mem_append.2
    ⟨faultAt?_eq_none_iff.1 ht.faultless, faultAt?_eq_none_iff.1 hu.faultless⟩)

theorem IsDeclared.upon (hu : IsDeclared u) (ht : IsDeclared t) :
    IsDeclared (Forest.upon u t) := by
  rw [← ofPaths_append ht hu]
  apply isDeclared_ofPaths (Forest.agree_pathsFrom 0 _)
  · exact fun p hp => (Forest.stands_append.2 ⟨ht.stands, hu.stands⟩).pathsFrom hp
  · exact Outline.faultless_of_ofPaths (r := worldRules)
      (isLineage_paths (faultless_append ht hu)).ofPaths
  · exact fun p hp s hs => (Forest.isLocal_append.2 ⟨ht.unmarked, hu.unmarked⟩).pathsFrom hp hs

end Forest

/-- Declarations of two forms are grown together: those of the second laid upon those of the
first. -/
theorem Form.foldDeclarations_append {t u : Forest Tag} (ht : t.IsDeclared) (hu : u.IsDeclared) :
    Form.foldDeclarations (t ++ u) = .ok (Forest.upon u t) := by
  have taken : WorldOutline.ofForest (t ++ u) = .ok ⟨worldRules, Forest.paths (t ++ u)⟩ :=
    Outline.ofForest_eq_ok.2 ⟨Forest.faultless_append ht hu, rfl⟩
  have grown := Forest.ofPaths_append ht hu
  unfold foldDeclarations
  split
  · rename_i empty
    rw [empty] at grown
    rw [← grown]
    rfl
  · rw [Forest.worldPaths, taken, ← grown]
    rfl

/-! ### The declarations of documents -/

namespace Forest

variable {t : Forest Tag} {backward : List Tag}

theorem SettledAfter.stripInherited (h : SettledAfter worldRules backward t) :
    SettledAfter worldRules backward (Forest.stripInherited t) := by
  induction t using Forest.induction generalizing backward with
  | nil => trivial
  | cons d e cs rest hcs hrest => exact ⟨h.1, hcs h.2.1, hrest h.2.2⟩

theorem faultAt?_stripInherited {isWrapper : Tag → Bool} {depth : Nat}
    (h : Forest.faultAt? isWrapper depth t = none) :
    Forest.faultAt? isWrapper depth (Forest.stripInherited t) = none := by
  induction t using Forest.induction generalizing depth with
  | nil => rfl
  | cons d e cs rest hcs hrest =>
    obtain ⟨own, beside⟩ := Option.or_eq_none_iff.1 h
    obtain ⟨within, ended, below⟩ := Node.fault?_eq_none.1 own
    refine Option.or_eq_none_iff.2 ⟨Node.fault?_eq_none.2 ⟨within, fun empty => ?_, hcs below⟩,
      hrest beside⟩
    apply ended
    cases cs with
    | nil => rfl
    | cons n cs => simp [Forest.stripInherited] at empty

theorem SettledAfter.filter (h : SettledAfter worldRules backward t)
    (stands : Forest.Stands (.under Tag.StandsOpenly) none t)
    (before : ∀ x ∈ backward, Tag.StandsOpenly none x) (test : Node Tag → Bool)
    {kept : List Tag} (sub : ∀ x ∈ kept, x ∈ backward) :
    SettledAfter worldRules kept (List.filter test t) := by
  induction t generalizing backward kept with
  | nil => trivial
  | cons n t ih =>
    obtain ⟨unfound, below, beside⟩ := h
    obtain ⟨hn, others⟩ := stands
    have own : Tag.StandsOpenly none n.data := by
      cases n
      exact hn.1
    have before' := List.forall_mem_cons.2 ⟨own, before⟩
    rw [List.filter_cons]
    split
    · refine ⟨?_, below, ih beside others before' ?_⟩
      · have joinable : Tag.Joinable none := .inl (by simp)
        rw [Tag.finds_eq_any joinable own before, List.any_eq_false] at unfound
        rw [Tag.finds_eq_any joinable own (fun x hx => before x (sub x hx)), List.any_eq_false]
        exact fun x hx => unfound x (sub x hx)
      · intro x hx
        rcases List.mem_cons.1 hx with rfl | hx
        · exact List.mem_cons_self
        · exact List.mem_cons_of_mem _ (sub x hx)
    · exact ih beside others before' (fun x hx => List.mem_cons_of_mem _ (sub x hx))

end Forest

namespace Standardize

theorem stands_openly_below {a : Tag} {p : Path Tag}
    (h : Path.Stands (.under Tag.StandsLifted) (some a) p) :
    Path.Stands (.under Tag.StandsOpenly) (some a) p := by
  induction p generalizing a with
  | nil => trivial
  | cons s rest ih => exact ⟨h.1.openly, ih h.2⟩

/-- The imports and the exports of documents are declarations. -/
theorem isDeclared_declarations {docs : List (Path Tag)} (lifted : Address.AreLifted docs)
    {declared : Forest Tag} (h : declarations (docs.filterMap declarationPath?) = .ok declared)
    (test : Node Tag → Bool) :
    Forest.IsDeclared (List.filter test (Forest.stripInherited declared)) := by
  have tidy := isTidy_declarations lifted h
  obtain ⟨settled, stands, faultless⟩ : Forest.Settled worldRules declared ∧
      Forest.Stands (.under Tag.StandsOpenly) none declared ∧
      Forest.fault? Tag.isWrapper declared = none := by
    unfold declarations at h
    split at h
    · obtain rfl := Except.ok.inj h
      exact ⟨trivial, trivial, rfl⟩
    · have grown := Alignment.regrow_eq_ok h
      unfold Alignment.regrow at h
      split at h
      · rename_i o taken
        have agree := agree_declarationPaths lifted.agree
        rw [grown]
        refine ⟨Forest.settled_ofPaths agree, ?_, Forest.faultless_ofPaths agree ?_⟩
        · apply Growth.stands_insertAll Tag.respects_standsOpenly agree
          intro q hq
          obtain ⟨above, s, below, hp, rfl, hs⟩ := exists_of_mem_declarationPaths hq
          refine ⟨⟨fun _ => ?_, by simp⟩,
            stands_openly_below (Address.Path.stands_after (lifted.stands _ hp))⟩
          cases hd : s.data <;> simp [hd, isDeclaration] at hs <;>
            simp [Tag.category, Category.unordered]
        · exact Outline.faultless_of_ofPaths taken
      · simp at h
  constructor
  · exact settled.stripInherited.filter stands.stripInherited (by simp) test (by simp)
  · rw [Forest.stands_iff]
    intro n hn
    exact Forest.stands_iff.1 stands.stripInherited n (List.mem_filter.1 hn).1
  · apply Forest.faultAt?_eq_none_iff.2
    intro n hn
    exact Forest.faultAt?_eq_none_iff.1 (Forest.faultAt?_stripInherited faultless) n
      (List.mem_filter.1 hn).1
  · exact tidy.isLocal_stripInherited.filter test

end Standardize

end WorldMarkup
