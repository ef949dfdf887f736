import WorldMarkup.Proofs.Form.Unsplit
import WorldMarkup.Proofs.Tree.Ranking

/-!
Components whose own tree makes them again. Their fields hold running text, their other children
end at bare references, and all of it stands where it would grow. Main statement: the paths of such
a component, among references to it, make that component.
-/

set_option autoImplicit false
set_option relaxedAutoImplicit false

namespace WorldMarkup

open Ownership (slot? ownedPath? splitAtLast? untilNested)
open SplitChain

namespace Growth

variable {order : List Category} {kind : EntityKind} {key : String} {paths : List (Path Tag)}

/-- Local paths that start at one entity grow into one tree, and the last path says what its root
is. -/
theorem insertAll_starts_local (order : List Category) (hp : ∀ p ∈ paths, ∃ t r, p = t :: r ∧
      t.data.isEntityOf kind key = true ∧ t.extra.inherited = false)
    {t : Step Tag} {r : Path Tag} (last : paths.getLast? = some (t :: r)) :
    ∃ m, insertAll (regrowth order) paths [] = [m] ∧ m.data.1 = t.data ∧
      m.children = insertAll (regrowth order) (paths.map List.tail) [] ∧
      m.extra.id = paths.findSome? (fun p => p.head?.bind (fun t => t.extra.id)) := by
  obtain ⟨front, rfl⟩ := List.getLast?_eq_some_iff.1 last
  have starts : ∀ p ∈ front ++ [t :: r], ∃ t r, p = t :: r ∧ t.data.isEntityOf kind key = true :=
    fun p hp' => (hp p hp').imp fun t h => h.imp fun r h => ⟨h.1, h.2.1⟩
  obtain ⟨m, grown, -, children, id⟩ := @insertAll_starts order _ _ _ starts (by simp)
  refine ⟨m, grown, ?_, children, id⟩
  obtain ⟨t', r', same, target, bare⟩ := hp (t :: r) (by simp)
  obtain ⟨rfl, rfl⟩ := List.cons.inj same
  rw [insertAll_append, insertAll_cons] at grown
  rcases front with _ | ⟨p, front⟩
  · rw [insertAll_nil, insertAll_nil, insert_nil] at grown
    rw [← List.singleton_inj.1 grown]
  · obtain ⟨n, before, own, -⟩ := @insertAll_starts order _ _ (p :: front)
      (fun q hq => starts q (List.mem_append_left _ hq)) (by simp)
    rw [before, insertAll_nil, (insert_root target own r).1] at grown
    rw [← List.singleton_inj.1 grown]
    simp [Step.settle, bare]

end Growth

namespace Standardize

theorem componentOf_of_grown {content : List (Path Tag)} {kind : EntityKind} {key : String}
    {root : Node Tag} {e : Entity}
    (seen : content.filterMap (Ownership.ownedPath? kind key) ≠ [])
    (grown : growComponent kind key (content.filterMap (Ownership.ownedPath? kind key)) =
      .ok [root]) (data : root.data = .entity e) (target : root.data.isEntityOf kind key = true) :
    componentOf content kind key = (settle (root.children.foldl place
      { Component.ofEntity e with extra := { id := root.extra.id } })).map some := by
  have own : List.filter (fun n : Node Tag => n.data.isEntityOf kind key) [root] = [root] := by
    simp [target]
  have some : (content.filterMap (Ownership.ownedPath? kind key)).isEmpty = false := by
    simpa using seen
  simp only [componentOf, some, grown, own, data, Component.ofTag, List.flatMap_nil,
    List.append_nil, bind, Except.bind, pure, Except.pure, Bool.false_eq_true, if_false]
  cases settle (root.children.foldl place
    { Component.ofEntity e with extra := { id := root.extra.id } }) <;> rfl

end Standardize

/-! ### Components that settling leaves alone -/

theorem Forest.depth_of_faultAt? {isWrapper : Tag → Bool} {t : Forest Tag} {depth : Nat}
    (low : depth ≤ maxDepth) (h : Forest.faultAt? isWrapper depth t = none) :
    depth + Forest.depth t ≤ maxDepth := by
  induction t using Forest.induction generalizing depth with
  | nil => exact low
  | cons d e cs rest hcs hrest =>
    obtain ⟨own, beside⟩ := Option.or_eq_none_iff.1 h
    obtain ⟨lower, -, below⟩ := Node.fault?_eq_none.1 own
    have := hcs lower below
    have := hrest low beside
    simp only [Forest.depth, Node.depth]
    omega

theorem Forest.depth_le_iff {t : Forest Tag} {k : Nat} :
    Forest.depth t ≤ k ↔ ∀ n ∈ t, n.depth ≤ k := by
  induction t with
  | nil => simp [Forest.depth]
  | cons n t ih => rw [Forest.depth, Nat.max_le, ih, List.forall_mem_cons]

namespace Edit

theorem onChildren_of_free {f : Forest Tag → Except FormError (Forest Tag)} {t : Forest Tag}
    (hf : ∀ n ∈ t, f n.children = .ok n.children) : onChildren f t = .ok t := by
  induction t with
  | nil => rfl
  | cons n rest ih =>
    rw [onChildren, ih fun m hm => hf m (by simp [hm]), hf n (by simp)]
    cases n
    rfl

theorem resolveWithin_of_free {levels : Nat} {t : Forest Tag} (free : Forest.IsEditFree t)
    (shallow : Forest.depth t < levels) : resolveWithin levels t = .ok t := by
  induction levels generalizing t with
  | zero => omega
  | succ levels ih =>
    have none : List.any t isEdit = false :=
      List.any_eq_false.2 fun n hn => by simp [(isEditFree_children free hn).2]
    have siblings : resolveSiblings t = .ok t := by simp [resolveSiblings, none]
    rw [resolveWithin, siblings]
    refine onChildren_of_free fun n hn => ih (isEditFree_children free hn).1 ?_
    obtain ⟨d, e, cs⟩ := n
    have own := Forest.depth_le_iff.1 le_rfl _ hn
    rw [Node.depth] at own
    show Forest.depth cs < levels
    omega

end Edit

theorem Forest.applyEdits_of_free {t : Forest Tag} (free : Forest.IsEditFree t)
    (shallow : Forest.depth t ≤ maxDepth) : Forest.applyEdits t = .ok t :=
  Edit.resolveWithin_of_free free (by omega)

theorem Forest.stripInherited_of_isLocal {t : Forest Tag} (h : Forest.IsLocal t) :
    Forest.stripInherited t = t := by
  induction t using Forest.induction with
  | nil => rfl
  | cons d e cs rest hcs hrest =>
    obtain ⟨⟨-, unmarked⟩, below, beside⟩ := Forest.isLocal_cons.1 h
    rw [Forest.stripInherited, Node.stripInherited, hcs below, hrest beside, ← unmarked]

/-- Content that settling leaves alone. -/
structure Forest.IsFinished (t : Forest Tag) : Prop where
  free : Forest.IsEditFree t
  shallow : Forest.depth t < maxDepth
  joined : Forest.joinText t = t
  unmarked : Forest.IsLocal t

/-! ### Forests whose entities are references -/

theorem Forest.preorder_eq_flatMap (t : Forest Tag) :
    Forest.preorder t = t.flatMap Node.preorder := by
  induction t with
  | nil => rfl
  | cons n t ih => rw [Forest.preorder, ih, List.flatMap_cons]

theorem Forest.preorder_eq_trees (t : Forest Tag) :
    Forest.preorder t = (Forest.trees t).map (fun n => (n.data, n.extra)) := by
  induction t using Forest.induction with
  | nil => rfl
  | cons d e cs rest hcs hrest => simp [Forest.preorder_cons, Forest.trees_cons, hcs, hrest]

theorem Forest.mem_preorder_of_mem_trees {t : Forest Tag} {n : Node Tag}
    (hn : n ∈ Forest.trees t) : (n.data, n.extra) ∈ Forest.preorder t := by
  rw [Forest.preorder_eq_trees]
  exact List.mem_map_of_mem (f := fun n : Node Tag => (n.data, n.extra)) hn

theorem Forest.mem_preorder_of_mem {t : Forest Tag} {n : Node Tag} (hn : n ∈ t) :
    (n.data, n.extra) ∈ Forest.preorder t :=
  Forest.mem_preorder_of_mem_trees (Forest.mem_trees_of_mem hn)

theorem Forest.exists_paths_of_mem_pathsFrom {t : Forest Tag} {first : Nat} {p : Path Tag}
    (hp : p ∈ Forest.pathsFrom first t) : ∃ n ∈ t, ∃ k, p ∈ Node.paths k n := by
  induction t generalizing first with
  | nil => simp [Forest.pathsFrom] at hp
  | cons n t ih =>
    rw [Forest.pathsFrom, List.mem_append] at hp
    rcases hp with hp | hp
    · exact ⟨n, List.mem_cons_self, first, hp⟩
    · obtain ⟨m, hm, rest⟩ := ih hp
      exact ⟨m, List.mem_cons_of_mem _ hm, rest⟩

theorem Forest.exists_root_of_mem_pathsFrom {t : Forest Tag} {first : Nat} {p : Path Tag}
    (hp : p ∈ Forest.pathsFrom first t) :
    ∃ n ∈ t, ∃ k, ∃ q ∈ Forest.rests (k + 1) n.children, p = ⟨n.data, n.extra, k⟩ :: q := by
  obtain ⟨⟨d, e, cs⟩, hn, k, hp⟩ := Forest.exists_paths_of_mem_pathsFrom hp
  obtain ⟨q, hq, rfl⟩ := List.mem_map.1 (paths_eq_rests k d e cs ▸ hp)
  exact ⟨_, hn, k, q, hq, rfl⟩

theorem Forest.exists_path_of_mem_preorder {t : Forest Tag} {x : Tag × Extra}
    (hx : x ∈ Forest.preorder t) (first : Nat) :
    ∃ p ∈ Forest.pathsFrom first t, ∃ s ∈ p, (s.data, s.extra) = x := by
  induction t using Forest.induction generalizing first with
  | nil => simp [Forest.preorder] at hx
  | cons d e cs rest hcs hrest =>
    simp only [Forest.pathsFrom, paths_eq_rests, List.mem_append]
    rw [Forest.preorder_cons, List.mem_cons, List.mem_append] at hx
    rcases hx with rfl | hx | hx
    · obtain ⟨q, hq⟩ := List.exists_mem_of_ne_nil _ (Forest.rests_ne_nil (first + 1) cs)
      exact ⟨⟨d, e, first⟩ :: q, .inl (List.mem_map_of_mem hq), _, List.mem_cons_self, rfl⟩
    · obtain ⟨q, hq, s, hs, same⟩ := hcs hx (first + 1)
      have below : Forest.rests (first + 1) cs = Forest.pathsFrom (first + 1) cs := by
        rw [Forest.rests, if_neg]
        intro empty
        rw [List.isEmpty_iff.1 empty] at hx
        simp [Forest.preorder] at hx
      refine ⟨⟨d, e, first⟩ :: q, .inl (List.mem_map_of_mem (below ▸ hq)), s, ?_, same⟩
      exact List.mem_cons_of_mem _ hs
    · obtain ⟨p, hp, found⟩ := hrest hx (first + Node.size ⟨d, e, cs⟩)
      exact ⟨p, .inr hp, found⟩

theorem Forest.mem_preorder_of_mem_rests {t : Forest Tag} {first : Nat} {q : Path Tag}
    (hq : q ∈ Forest.rests first t) {s : Step Tag} (hs : s ∈ q) :
    (s.data, s.extra) ∈ Forest.preorder t := by
  rw [Forest.rests] at hq
  split at hq
  · simp_all
  · exact Forest.mem_preorder_of_mem_path hq hs

/-- The entities of the forest are references: leaves that say no more than what they refer to. -/
def Forest.RefersBarely (t : Forest Tag) : Prop :=
  ∀ n ∈ Forest.trees t, n.data.entity?.isSome = true →
    n.data.withoutSource = n.data ∧ n.extra = {} ∧ n.children = []

namespace Forest

variable {t : Forest Tag} {first : Nat} {p x y : Path Tag} {s : Step Tag}

theorem refersBarely_cons {d : Tag} {e : Extra} {cs rest : Forest Tag} :
    RefersBarely (⟨d, e, cs⟩ :: rest) ↔
      (d.entity?.isSome = true → d.withoutSource = d ∧ e = {} ∧ cs = []) ∧ RefersBarely cs ∧
        RefersBarely rest := by
  simp only [RefersBarely, trees_cons, List.forall_mem_cons, List.forall_mem_append]

theorem RefersBarely.ends (h : RefersBarely t) (hp : x ++ s :: y ∈ Forest.pathsFrom first t)
    (entity : s.data.entity?.isSome = true) :
    y = [] ∧ s.data.withoutSource = s.data ∧ s.extra = {} := by
  induction t using Forest.induction generalizing first x with
  | nil => simp [Forest.pathsFrom] at hp
  | cons d e cs rest hcs hrest =>
    obtain ⟨own, below, beside⟩ := refersBarely_cons.1 h
    rw [Forest.pathsFrom, List.mem_append, paths_eq_rests] at hp
    rcases hp with hp | hp
    · obtain ⟨q, hq, split⟩ := List.mem_map.1 hp
      rcases x with _ | ⟨s', x⟩
      · obtain ⟨rfl, rfl⟩ := List.cons.inj split
        obtain ⟨same, bare, rfl⟩ := own entity
        exact ⟨by simpa [rests] using hq, same, bare⟩
      · obtain ⟨rfl, rfl⟩ := List.cons.inj split
        rw [rests] at hq
        split at hq
        · simp at hq
        · exact hcs below hq
    · exact hrest beside hp

theorem RefersBarely.untilNested_eq (h : RefersBarely t) (hp : p ∈ Forest.pathsFrom first t) :
    untilNested p = p := by
  suffices ∀ x y, p = x ++ y → untilNested y = y from this [] p rfl
  intro x y
  induction y generalizing x with
  | nil => exact fun _ => rfl
  | cons s y ih =>
    intro split
    rw [untilNested]
    cases entity : s.data.entity?.isSome with
    | false => rw [if_neg (by simp), ih (x ++ [s]) (by simp [split])]
    | true =>
      obtain ⟨rfl, same, bare⟩ := h.ends (split ▸ hp) entity
      rw [if_pos rfl, same, ← bare]

end Forest

theorem Forest.isFinished_nil : Forest.IsFinished [] where
  free := by simp [Forest.IsEditFree, Forest.preorder]
  shallow := by simp [Forest.depth, maxDepth]
  joined := rfl
  unmarked := Forest.isLocal_nil

namespace Component

variable {c : Component} {content : FieldKind → Forest Tag}

theorem settleField_of_isFinished {f : FieldKind} {t : Forest Tag} (h : Forest.IsFinished t) :
    Standardize.settleField (.holding f t) = .ok (.holding f t) := by
  have free : Forest.IsEditFree [(ComponentField.holding f t).node] :=
    Forest.isEditFree_cons.2 ⟨by simp, h.free, by simp [Forest.IsEditFree, Forest.preorder]⟩
  have shallow : Forest.depth [(ComponentField.holding f t).node] ≤ maxDepth := by
    have := h.shallow
    simp only [ComponentField.holding, Node.branch, Forest.depth, Node.depth]
    omega
  rw [Standardize.settleField, Forest.applyEdits_of_free free shallow]
  simp only [ComponentField.holding, Node.branch, bind, Except.bind, pure, Except.pure,
    Forest.joinText, Forest.joinTextAfter, Node.joinText, Option.toList_none, List.nil_append,
    Option.toList_some, List.getLast?_singleton, Node.stripInherited]
  rw [show Forest.joinTextAfter none t = t from h.joined,
    Forest.stripInherited_of_isLocal h.unmarked]

theorem settle_of_isFinished (holds : c.Holds content)
    (fields : ∀ f ∈ c.kind.fields, Forest.IsFinished (content f))
    (items : Forest.IsFinished c.items) : Standardize.settle c = .ok c := by
  have settled : c.fields.mapM Standardize.settleField = .ok c.fields := by
    rw [holds]
    revert fields
    generalize c.kind.fields = kinds
    intro fields
    induction kinds with
    | nil => rfl
    | cons f kinds ih =>
      obtain ⟨own, fields⟩ := List.forall_mem_cons.1 fields
      rw [List.map_cons, List.mapM_cons, settleField_of_isFinished own, ih fields]
      rfl
  rw [Standardize.settle, settled, Forest.applyEdits_of_free items.free items.shallow.le]
  simp only [bind, Except.bind, pure, Except.pure]
  rw [items.joined, Forest.stripInherited_of_isLocal items.unmarked]

/-! ### Components whose tree grows back -/

/-- The component is as its own tree makes it: its fields hold running text, its other children
stand for no field, the entities among them are bare references, and all of them stand where they
would grow. -/
structure IsSteady (c : Component) : Prop where
  tag : ∃ e, c.tag = .entity e ∧ e.kind = c.kind ∧ e.key = c.key ∧ e.source = none
  unmarked : c.extra.inherited = false
  holds : ∃ content, c.Holds content
  kept : ∀ f ∈ c.fields, ∀ x ∈ Forest.preorder f.node.children, x.1.isKept = true
  finished : ∀ f ∈ c.fields, Forest.IsFinished f.node.children
  plain : ∀ x ∈ Forest.preorder c.items,
    x.1.field? = none ∧ Standardize.isDeclaration x.1 = false
  nested : ∀ x ∈ Forest.preorder c.items, ∀ e, x.1 = .entity e →
    (Tag.entity e).inEntity c.kind = true
  settled : Forest.IsFinished c.items
  bare : Forest.RefersBarely c.items
  inPlace : Forest.InPlace (Growth.regrowth Address.childOrder) c.toNode.children
  faultless : Forest.faultAt? Tag.isWrapper 2 c.toNode.children = none

theorem items_placeAll (c : Component) (children : Forest Tag) :
    (children.foldl Standardize.place c).items = c.items ++
      List.filter (fun n => (n.data.field?.filter c.kind.hasField).isNone) children := by
  induction children generalizing c with
  | nil => simp
  | cons n rest ih =>
    rw [List.foldl_cons, ih]
    unfold Standardize.place
    split
    · rename_i own
      simp only [List.filter_cons, own, Option.isNone_some, Bool.false_eq_true, if_false]
    · rename_i own
      simp only [List.filter_cons, own, Option.isNone_none, if_true, List.append_assoc,
        List.singleton_append]

theorem exists_placeAll (c : Component) (children : Forest Tag) :
    ∃ fields items, children.foldl Standardize.place c = { c with fields, items } := by
  induction children generalizing c with
  | nil => exact ⟨_, _, rfl⟩
  | cons n rest ih =>
    obtain ⟨fields, items, placed⟩ := exists_place c n
    obtain ⟨fields', items', all⟩ := ih (Standardize.place c n)
    exact ⟨fields', items', by rw [List.foldl_cons, all, placed]⟩

theorem flatMap_filled (content : FieldKind → Forest Tag) {kinds : List FieldKind}
    (once : kinds.Nodup) (f : FieldKind) :
    (List.filter (fun n : Node Tag => decide (n.data.field? = some f))
      (((kinds.map (fun g => ComponentField.holding g (content g))).filter
        (fun x => !x.isEmpty)).map ComponentField.node)).flatMap Node.children =
      if f ∈ kinds then content f else [] := by
  induction kinds with
  | nil => rfl
  | cons g kinds ih =>
    obtain ⟨apart, once⟩ := List.nodup_cons.1 once
    have ih := ih once
    have empty : (ComponentField.holding g (content g)).isEmpty = (content g).isEmpty := rfl
    have data : (ComponentField.holding g (content g)).node.data.field? = some g := rfl
    have below : (ComponentField.holding g (content g)).node.children = content g := rfl
    rw [List.map_cons, List.filter_cons, empty]
    by_cases own : f = g
    · subst own
      rw [if_neg apart] at ih
      cases filled : (content f).isEmpty with
      | true => simpa [List.isEmpty_iff.1 filled] using ih
      | false =>
        simp only [Bool.not_false, if_true, List.map_cons, List.filter_cons, data, decide_true,
          List.flatMap_cons, below, ih, List.append_nil, List.mem_cons_self]
    · have other : decide (some g = some f) = false := by simpa using Ne.symm own
      cases filled : (content g).isEmpty with
      | true => simpa [own] using ih
      | false =>
        simp only [Bool.not_false, if_true, List.map_cons, List.filter_cons, data, other,
          Bool.false_eq_true, if_false, ih, List.mem_cons, own, false_or]

theorem children_toNode (c : Component) : c.toNode.children =
    (c.fields.filter (fun f => !f.isEmpty)).map ComponentField.node ++ c.items := rfl

theorem children_toNode_ofEntity (e : Entity) : (ofEntity e).toNode.children = [] := by
  have empty : ((ofEntity e).fields.filter (fun f => !f.isEmpty)) = [] := by
    refine List.filter_eq_nil_iff.2 fun f hf => ?_
    obtain ⟨g, -, rfl⟩ := List.mem_map.1 hf
    simp [ComponentField.shell, ComponentField.isEmpty, Node.leaf]
  rw [children_toNode, empty]
  rfl

/-- The children of the component fill a shell of its kind. -/
theorem IsSteady.placeAll (h : c.IsSteady) (shell : Component) (kind : shell.kind = c.kind)
    (fields : shell.Holds fun _ => []) (items : shell.items = []) :
    c.toNode.children.foldl Standardize.place shell =
      { shell with fields := c.fields, items := c.items } := by
  obtain ⟨content, holds⟩ := h.holds
  have plain : ∀ n ∈ c.items, n.data.field? = none := fun n hn =>
    (h.plain _ (Forest.mem_preorder_of_mem hn)).1
  have filled := fields.foldl_place c.toNode.children
  have listed := items_placeAll shell c.toNode.children
  obtain ⟨fields', items', placed⟩ := exists_placeAll shell c.toNode.children
  rw [placed] at filled listed ⊢
  have own : fields' = c.fields := by
    refine filled.trans (holds.symm ▸ ?_)
    rw [kind]
    refine List.map_congr_left fun f hf => congrArg _ ?_
    have beside : List.filter (fun n : Node Tag => decide (n.data.field? = some f)) c.items = [] :=
      List.filter_eq_nil_iff.2 fun n hn => by simp [plain n hn]
    have inside := flatMap_filled content (nodup_fields c.kind) f
    rw [← holds, if_pos hf] at inside
    show [] ++ List.flatMap Node.children (List.filter _ c.toNode.children) = content f
    rw [children_toNode, List.filter_append, List.flatMap_append, beside, inside]
    simp
  have others : items' = c.items := by
    have fieldless : List.filter (fun n : Node Tag =>
        (n.data.field?.filter shell.kind.hasField).isNone) c.items = c.items :=
      List.filter_eq_self.2 fun n hn => by simp [plain n hn]
    have filled : List.filter (fun n : Node Tag =>
        (n.data.field?.filter shell.kind.hasField).isNone)
        ((c.fields.filter (fun f => !f.isEmpty)).map ComponentField.node) = [] := by
      refine List.filter_eq_nil_iff.2 fun n hn => ?_
      obtain ⟨x, hx, rfl⟩ := List.mem_map.1 hn
      have hx := (List.mem_filter.1 hx).1
      rw [holds] at hx
      obtain ⟨f, hf, rfl⟩ := List.mem_map.1 hx
      have declared : shell.kind.hasField f = true := kind ▸ List.contains_iff_mem.2 hf
      simp [ComponentField.holding, Node.branch, Tag.field?, declared]
    refine listed.trans ?_
    rw [children_toNode, List.filter_append, filled, fieldless, items]
    rfl
  rw [own, others]

end Component

namespace Component

variable {c : Component} {a : Address} {first : Nat} {p o : Path Tag}

theorem IsSteady.of_mem_fields (h : c.IsSteady) {x : Tag × Extra}
    (hx : x ∈ Forest.preorder ((c.fields.filter (fun f => !f.isEmpty)).map ComponentField.node)) :
    (∃ g, x.1 = .field g ∧ c.kind.hasField g = true) ∨ x.1.isKept = true := by
  rw [Forest.preorder_eq_flatMap, List.mem_flatMap] at hx
  obtain ⟨n, hn, hx⟩ := hx
  obtain ⟨f, hf, rfl⟩ := List.mem_map.1 hn
  have hf := (List.mem_filter.1 hf).1
  obtain ⟨content, holds⟩ := h.holds
  have listed := hf
  rw [holds] at listed
  obtain ⟨g, hg, rfl⟩ := List.mem_map.1 listed
  rcases List.mem_cons.1 hx with rfl | hx
  · exact .inl ⟨g, rfl, List.contains_iff_mem.2 hg⟩
  · exact .inr (h.kept _ hf x hx)

theorem IsSteady.refersBarely (h : c.IsSteady) : Forest.RefersBarely c.toNode.children := by
  intro n hn entity
  rw [children_toNode, Forest.trees_append, List.mem_append] at hn
  rcases hn with hn | hn
  · exfalso
    rcases h.of_mem_fields (Forest.mem_preorder_of_mem_trees hn) with ⟨g, data, -⟩ | kept
    · rw [show n.data = .field g from data] at entity
      simp [Tag.entity?] at entity
    · simp [Address.entity?_of_isKept kept] at entity
  · exact h.bare n hn entity

theorem IsSteady.isTarget_tag (h : c.IsSteady) (kind : a.kind = c.kind) (key : a.key = c.key) :
    a.isTarget c.tag = true := by
  obtain ⟨e, tag, kind', key', -⟩ := h.tag
  simp [Address.isTarget, Tag.isEntityOf, tag, kind, key, kind', key']

theorem exists_rest_of_mem_paths (hp : p ∈ Node.paths first c.toNode) :
    ∃ r ∈ Forest.rests (first + 1) c.toNode.children, p = ⟨c.tag, c.extra, first⟩ :: r := by
  obtain ⟨r, hr, rfl⟩ := List.mem_map.1 (Forest.paths_eq_rests first c.tag c.extra _ ▸ hp)
  exact ⟨r, hr, rfl⟩

/-- A path of the component starts at it, and goes through its field if it goes through one. -/
theorem IsSteady.heads (h : c.IsSteady) (kind : a.kind = c.kind) (key : a.key = c.key)
    (hp : p ∈ Node.paths first c.toNode) (nests : p.Pairwise Path.Nests) :
    a.Heads p ∧ ownedPath? a.kind a.key p = some p := by
  obtain ⟨r, hr, rfl⟩ := exists_rest_of_mem_paths hp
  have target := h.isTarget_tag kind key
  have others := (Address.isTarget_beside (x := []) nests target).2
  have bare : untilNested r = r := by
    rw [Forest.rests] at hr
    split at hr
    · obtain rfl := List.mem_singleton.1 hr
      rfl
    · exact h.refersBarely.untilNested_eq hr
  refine ⟨⟨_, r, rfl, target, ?_⟩, ?_⟩
  · rw [Forest.rests] at hr
    split at hr
    · obtain rfl := List.mem_singleton.1 hr
      exact .inr (by simp)
    · rw [children_toNode, Forest.pathsFrom_append, List.mem_append] at hr
      rcases hr with hr | hr
      · obtain ⟨n, hn, k, d, hd, rfl⟩ := Forest.exists_root_of_mem_pathsFrom hr
        obtain ⟨f, hf, rfl⟩ := List.mem_map.1 hn
        have hf := (List.mem_filter.1 hf).1
        obtain ⟨content, holds⟩ := h.holds
        have listed := hf
        rw [holds] at listed
        obtain ⟨g, hg, rfl⟩ := List.mem_map.1 listed
        exact .inl ⟨_, g, d, rfl, rfl, kind ▸ List.contains_iff_mem.2 hg,
          fun s hs => h.kept _ hf _ (Forest.mem_preorder_of_mem_rests hd hs)⟩
      · exact .inr fun s hs =>
          ⟨(h.plain _ (Forest.mem_preorder_of_mem_path hr hs)).1, others s hs⟩
  · rcases r with _ | ⟨s, r⟩
    · exact @Address.ownedPath?_bare a [] _ target
    · have := @Address.ownedPath?_append a [] (s :: r) ⟨c.tag, c.extra, first⟩ target others
        (by simp)
      simpa [bare] using this

theorem children_of_references {before own after : List (Path Tag)}
    (refs : ∀ o ∈ before ++ after, o.tail = []) (order : List Category) :
    Growth.insertAll (Growth.regrowth order) ((before ++ own ++ after).map List.tail) [] =
      Growth.insertAll (Growth.regrowth order) (own.map List.tail) [] := by
  have none {l : List (Path Tag)} (sub : ∀ o ∈ l, o ∈ before ++ after) :
      (l.map List.tail).filter (fun p => !p.isEmpty) = [] := by
    refine List.filter_eq_nil_iff.2 fun p hp => ?_
    obtain ⟨o, ho, rfl⟩ := List.mem_map.1 hp
    simp [refs o (sub o ho)]
  rw [← Growth.insertAll_filter_nonempty, List.map_append, List.map_append, List.filter_append,
    List.filter_append, none (l := before) (by simp +contextual),
    none (l := after) (by simp +contextual), List.nil_append, List.append_nil,
    Growth.insertAll_filter_nonempty]

theorem IsSteady.children_grown (h : c.IsSteady) :
    Growth.insertAll (Growth.regrowth Address.childOrder)
      ((Node.paths first c.toNode).map List.tail) [] =
        Forest.numbered (first + 1) c.toNode.children := by
  have tails : (Node.paths first c.toNode).map List.tail =
      Forest.rests (first + 1) c.toNode.children := by
    rw [toNode, Forest.paths_eq_rests, List.map_map]
    exact (List.map_congr_left fun q _ => rfl).trans (List.map_id _)
  have merges : ∀ s : Step Tag, (Growth.regrowth Address.childOrder).combine s s =
      (s.data, s.extra) := Step.settle_self
  have rests := Growth.insertAll_rests (r := Growth.regrowth Address.childOrder) id rfl (first + 1)
    c.toNode.children []
  rw [List.map_id, List.map_id] at rests
  rw [tails, rests]
  exact Growth.insertAll_of_inPlace merges (g := []) h.inPlace (by simp)

theorem IsSteady.fault?_eq_none (h : c.IsSteady) (target : a.isTarget c.tag = true)
    (hp : p ∈ Node.paths first c.toNode) : Path.fault? Tag.isWrapper p = none := by
  obtain ⟨r, hr, rfl⟩ := exists_rest_of_mem_paths hp
  rw [Forest.rests] at hr
  split at hr
  · obtain rfl := List.mem_singleton.1 hr
    exact Address.fault?_of_isTarget target
  · obtain ⟨ended, short⟩ := Forest.ended_of_fault? h.faultless r hr
    have filled : r ≠ [] := by
      rintro rfl
      exact Forest.nil_notMem_pathsFrom _ _ hr
    refine Path.fault?_eq_none ?_ ?_
    · simp only [List.length_cons]
      omega
    · rwa [List.getLast?_cons_of_ne_nil filled]

/-- The paths of the component, among bare references to it; behind them a reference is written as
the component is. -/
structure IsSeen (c : Component) (a : Address) (first : Nat) (seen before after : List (Path Tag)) :
    Prop where
  split : seen = before ++ Node.paths first c.toNode ++ after
  refs : ∀ o ∈ before ++ after, a.Refers o
  said : ∀ o ∈ after, ∀ s ∈ o, s.data = c.tag

section IsSeen

variable {seen before after : List (Path Tag)}

theorem paths_toNode_ne_nil (first : Nat) (c : Component) : Node.paths first c.toNode ≠ [] := by
  rw [toNode, Forest.paths_eq_rests]
  simpa using Forest.rests_ne_nil _ _

theorem IsSeen.cases (among : c.IsSeen a first seen before after) (hp : p ∈ seen) :
    a.Refers p ∨ p ∈ Node.paths first c.toNode := by
  rw [among.split, List.append_assoc, List.mem_append, List.mem_append] at hp
  rcases hp with hp | hp | hp
  · exact .inl (among.refs p (by simp [hp]))
  · exact .inr hp
  · exact .inl (among.refs p (by simp [hp]))

theorem IsSeen.ne_nil (among : c.IsSeen a first seen before after) : seen ≠ [] := by
  simp [among.split, paths_toNode_ne_nil]

theorem IsSeen.exists_last (among : c.IsSeen a first seen before after) :
    ∃ t r, seen.getLast? = some (t :: r) ∧ t.data = c.tag := by
  have filled : Node.paths first c.toNode ++ after ≠ [] := by simp [paths_toNode_ne_nil]
  have hlast := List.getLast_mem filled
  have last : seen.getLast? = some ((Node.paths first c.toNode ++ after).getLast filled) := by
    rw [among.split, List.append_assoc, List.getLast?_append_of_ne_nil _ filled,
      List.getLast?_eq_getLast_of_ne_nil filled]
  rcases List.mem_append.1 hlast with hp | hp
  · obtain ⟨r, -, own⟩ := exists_rest_of_mem_paths hp
    exact ⟨_, r, own ▸ last, rfl⟩
  · obtain ⟨s, bare, -⟩ := among.refs _ (List.mem_append_right _ hp)
    exact ⟨s, [], bare ▸ last, among.said _ hp s (by simp [bare])⟩

theorem IsSeen.findSome?_id (among : c.IsSeen a first seen before after) :
    seen.findSome? (fun p => p.head?.bind (fun t => t.extra.id)) = c.extra.id := by
  refine findSome?_eq_of_forall (v := c.extra.id) (fun p hp => ?_) ?_
  · rcases among.cases hp with ⟨s, rfl, -, -, bare⟩ | hp
    · exact .inr (by simp [bare])
    · obtain ⟨r, -, rfl⟩ := exists_rest_of_mem_paths hp
      exact .inl rfl
  · obtain ⟨p, hp⟩ := List.exists_mem_of_ne_nil _ (paths_toNode_ne_nil first c)
    obtain ⟨r, -, rfl⟩ := exists_rest_of_mem_paths hp
    exact ⟨⟨c.tag, c.extra, first⟩ :: r, by simp [among.split, hp], rfl⟩

theorem IsSteady.forest_grown (h : c.IsSteady) (kind : a.kind = c.kind) (key : a.key = c.key)
    (among : c.IsSeen a first seen before after) :
    ∃ extra : Extra, extra.id = c.extra.id ∧
      (Growth.insertAll (Growth.regrowth Address.childOrder) seen []).forest =
        [⟨c.tag, extra, c.toNode.children⟩] := by
  have starts : ∀ p ∈ seen, ∃ t r, p = t :: r ∧ t.data.isEntityOf a.kind a.key = true ∧
      t.extra.inherited = false := by
    intro p hp
    rcases among.cases hp with ⟨s, rfl, refers, -, bare⟩ | hp
    · exact ⟨s, [], rfl, refers, by rw [bare]⟩
    · obtain ⟨r, -, rfl⟩ := exists_rest_of_mem_paths hp
      exact ⟨_, r, rfl, h.isTarget_tag kind key, h.unmarked⟩
  obtain ⟨t, r, last, said⟩ := among.exists_last
  obtain ⟨m, root, data, children, id⟩ :=
    Growth.insertAll_starts_local Address.childOrder starts last
  have tails : ∀ o ∈ before ++ after, o.tail = [] := by
    intro o ho
    obtain ⟨s, rfl, -⟩ := among.refs o ho
    rfl
  have below : m.children = Forest.numbered (first + 1) c.toNode.children := by
    rw [children, among.split, children_of_references tails, h.children_grown]
  refine ⟨m.extra, id.trans among.findSome?_id, ?_⟩
  rw [root, Growth.forest_node, below, Forest.forest_numbered, data, said]

end IsSeen

/-- The paths of a component, among bare references to it, make the component. -/
theorem IsSteady.componentOf (h : c.IsSteady) {docs : List (Path Tag)} (kind : a.kind = c.kind)
    (key : a.key = c.key) (hdocs : Address.AreContent docs) (apart : Path.AreApart docs)
    (owned : AreOwned (a.view docs))
    (nests : ∀ p ∈ Node.paths first c.toNode, p.Pairwise Path.Nests)
    {before after : List (Path Tag)} (among : c.IsSeen a first (a.view docs) before after) :
    Standardize.componentOf docs c.kind c.key = .ok (some { c with origin := none }) := by
  have target := h.isTarget_tag kind key
  have heads : ∀ p ∈ a.view docs, a.Heads p := by
    intro p hp
    rcases among.cases hp with ⟨s, rfl, refers, -⟩ | hp
    · exact ⟨s, [], rfl, refers, .inr (by simp)⟩
    · exact (h.heads kind key hp (nests p hp)).1
  have faultless : ∀ p ∈ a.view docs, Path.fault? Tag.isWrapper p = none := by
    intro p hp
    rcases among.cases hp with ⟨s, rfl, refers, -⟩ | hp
    · exact Address.fault?_of_isTarget refers
    · exact h.fault?_eq_none target hp
  -- the paths grow to one tree, whose children fill a shell of the kind and are settled already
  have grown := Address.growComponent_of_heads hdocs apart owned heads faultless
  obtain ⟨extra, id, tree⟩ := h.forest_grown kind key among
  rw [tree] at grown
  obtain ⟨e, tag, kind', key', source⟩ := h.tag
  have made := Standardize.componentOf_of_grown (e := e) among.ne_nil grown tag target
  rw [kind, key] at made
  refine made.trans ?_
  show Except.map _ (Standardize.settle (c.toNode.children.foldl _ _)) = _
  rw [h.placeAll { ofEntity e with extra := { id := extra.id } } kind'
    (holds_ofEntity e) rfl, id]
  obtain ⟨content, holds⟩ := h.holds
  have whole : { ofEntity e with
      extra := { id := c.extra.id }, fields := c.fields, items := c.items } =
        { c with origin := none } := by
    have extra : c.extra = { id := c.extra.id } := by
      rw [← h.unmarked]
    rw [ofEntity, kind', key', Entity.withoutSource_eq source, ← tag, ← extra]
  have fields : ∀ f ∈ c.kind.fields, Forest.IsFinished (content f) := by
    intro f hf
    refine h.finished (.holding f (content f)) ?_
    rw [holds]
    exact List.mem_map_of_mem hf
  have settled : Standardize.settle { c with origin := none } = .ok { c with origin := none } :=
    settle_of_isFinished (show Holds { c with origin := none } content from holds) fields h.settled
  rw [whole, settled]
  rfl

theorem isSteady_ofEntity (e : Entity) : (ofEntity e).IsSteady where
  tag := ⟨e.withoutSource, rfl, by simp [ofEntity], by simp [ofEntity], by simp⟩
  unmarked := rfl
  holds := ⟨_, holds_ofEntity e⟩
  kept := by
    intro f hf x hx
    obtain ⟨g, -, rfl⟩ := List.mem_map.1 hf
    simp [ComponentField.shell, Node.leaf, Forest.preorder] at hx
  finished := by
    intro f hf
    obtain ⟨g, -, rfl⟩ := List.mem_map.1 hf
    exact Forest.isFinished_nil
  plain := by simp [ofEntity, Forest.preorder]
  nested := by simp [ofEntity, Forest.preorder]
  settled := Forest.isFinished_nil
  bare := by simp [ofEntity, Forest.RefersBarely, Forest.trees_nil]
  inPlace := by
    rw [children_toNode_ofEntity]
    trivial
  faultless := by
    rw [children_toNode_ofEntity]
    rfl

/-- Bare references alone make a component that holds nothing. -/
theorem componentOf_of_references {docs : List (Path Tag)} (hdocs : Address.AreContent docs)
    (apart : Path.AreApart docs) (owned : AreOwned (a.view docs)) (seen : a.view docs ≠ [])
    (refs : ∀ o ∈ a.view docs, a.Refers o) :
    ∃ e : Entity, e.kind = a.kind ∧ e.key = a.key ∧
      Standardize.componentOf docs a.kind a.key = .ok (some (ofEntity e)) := by
  obtain ⟨before, o, split⟩ := (List.eq_nil_or_concat _).resolve_left seen
  obtain ⟨⟨t, extra, number⟩, rfl, target, same, rfl⟩ := refs o (by simp [split])
  obtain ⟨e, rfl, kind, key⟩ := Address.exists_entity_of_isTarget target
  have own : Node.paths number (ofEntity e).toNode = [[⟨.entity e, {}, number⟩]] := by
    rw [show (ofEntity e).toNode = ⟨.entity e.withoutSource, {}, (ofEntity e).toNode.children⟩
      from rfl, children_toNode_ofEntity, show Tag.entity e.withoutSource = .entity e from same]
    rfl
  refine ⟨e, kind, key, ?_⟩
  rw [← kind, ← key]
  have among : (ofEntity e).IsSeen a number (a.view docs) before [] := {
    split := by simp [split, own]
    refs := fun o ho => refs o (by simp_all)
    said := by simp }
  exact (isSteady_ofEntity e).componentOf kind.symm key.symm hdocs apart owned (by simp [own]) among

end Component

end WorldMarkup
