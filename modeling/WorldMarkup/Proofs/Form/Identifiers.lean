import WorldMarkup.Proofs.Form.Keys
import WorldMarkup.Proofs.Form.Nesting
import WorldMarkup.Proofs.Form.Targets

/-!
The ids of a form that comes of documents. Main statement: a component bears the first id that the
documents give to its entity outside of imports and exports, in the order of the documents; the
nodes of its fields bear none, whatever the documents say.
-/

set_option autoImplicit false
set_option relaxedAutoImplicit false

namespace WorldMarkup

open Ownership (ownedPath?)
open Standardize (isDeclaration rootContent combined componentOf)

variable {kind : EntityKind} {key : String}

/-! ### The paths of a component -/

namespace Address

variable {a : Address} {t : Forest Tag}

theorem firstId?_ownedPath? {p o : Path Tag} (fits : Path.Fits none p) (content : p.IsContent)
    (nests : p.Pairwise Path.Nests) (ho : ownedPath? a.kind a.key p = some o) :
    o.firstId? a.kind a.key = p.firstId? a.kind a.key := by
  have runs := Path.runs_of_fits p (.inl rfl) fits content
  obtain ⟨r, -, -, once⟩ := (routes_ownedPath? runs ho).target
  obtain ⟨above, t, below, rfl, target, under, seen⟩ := ownedPath?_cases ho
  have higher := (isTarget_beside nests target).1
  have whole : List.filter (fun s => a.isTarget s.data) (above ++ t :: below) = [t] := by
    have none {q : Path Tag} (hq : ∀ s ∈ q, a.isTarget s.data = false) :
        List.filter (fun s => a.isTarget s.data) q = [] :=
      List.filter_eq_nil_iff.2 fun s hs => by simp [hq s hs]
    simp [none higher, none under, target]
  have own : t ∈ List.filter (fun s => a.isTarget s.data) o := by
    refine List.mem_filter.2 ⟨?_, target⟩
    rcases seen with ⟨-, rfl⟩ | ⟨-, rfl⟩ <;> simp
  rw [once, List.mem_singleton] at own
  rw [firstId?_of_filter once, firstId?_of_filter whole, own]

theorem findSome?_view (h : Forest.Fits none t) (accepted : AreAccepted (contentPaths t)) :
    (a.view (contentPaths t)).findSome? (Path.firstId? a.kind a.key) =
      (contentPaths t).findSome? (Path.firstId? a.kind a.key) := by
  rw [view, findSome?_filterMap]
  refine findSome?_congr fun p hp => ?_
  cases ho : ownedPath? a.kind a.key p with
  | some o =>
    have fits := Path.fits_of_mem.1 h p (List.mem_filter.1 hp).1
    exact firstId?_ownedPath? fits (accepted.content p hp) (accepted.nests hp) ho
  | none =>
    refine (List.findSome?_eq_none_iff.2 fun s hs => ?_).symm
    have strange : s.data.isEntityOf a.kind a.key = false := ownedPath?_eq_none.1 ho s hs
    simp [strange]

end Address

/-! ### Content paths in the order of a forest -/

mutual

/-- The first id that the entity is given in a tree, in preorder, outside of imports and
exports. -/
def Node.firstId? (kind : EntityKind) (key : String) : Node Tag → Option String
  | ⟨t, e, cs⟩ =>
    if isDeclaration t then none
    else (if t.isEntityOf kind key then e.id else none).or (Forest.firstId? kind key cs)

/-- The first id that the entity is given in a forest, in preorder, outside of imports and
exports. -/
def Forest.firstId? (kind : EntityKind) (key : String) : Forest Tag → Option String
  | [] => none
  | n :: rest => (n.firstId? kind key).or (Forest.firstId? kind key rest)

end

/-- The first id that the entity bears on content paths. -/
def Path.contentId? (kind : EntityKind) (key : String) (paths : List (Path Tag)) : Option String :=
  (paths.filter (fun p => decide p.IsContent)).findSome? (Path.firstId? kind key)

namespace Path

theorem contentId?_append (l m : List (Path Tag)) :
    contentId? kind key (l ++ m) = (contentId? kind key l).or (contentId? kind key m) := by
  simp [contentId?]

theorem contentId?_declared {s : Step Tag} (declares : isDeclaration s.data = true)
    (l : List (Path Tag)) : contentId? kind key (l.map (s :: ·)) = none := by
  simp [contentId?, IsContent, declares]

theorem contentId?_below {s : Step Tag} (plain : isDeclaration s.data = false)
    {l : List (Path Tag)}
    (leads : s.data.isEntityOf kind key = true → ∃ q ∈ l, q.IsContent) :
    contentId? kind key (l.map (s :: ·)) =
      (if s.data.isEntityOf kind key then s.extra.id else none).or (contentId? kind key l) := by
  have content (q : Path Tag) : decide (IsContent (s :: q)) = decide q.IsContent :=
    decide_eq_decide.2 (by simp [IsContent, plain])
  have first (q : Path Tag) : firstId? kind key (s :: q) =
      (if s.data.isEntityOf kind key then s.extra.id else none).or (firstId? kind key q) := by
    rw [firstId?, List.findSome?_cons]
    split <;> simp_all [firstId?]
  rw [contentId?, List.filter_map, List.findSome?_map]
  simp only [Function.comp_def, content, first]
  cases own : (if s.data.isEntityOf kind key then s.extra.id else none) with
  | none => simp [contentId?]
  | some id =>
    have target : s.data.isEntityOf kind key = true := by
      by_contra strange
      simp [strange] at own
    obtain ⟨q, hq, hcontent⟩ := leads target
    exact findSome?_eq_of_forall (fun _ _ => .inl rfl)
      ⟨q, List.mem_filter.2 ⟨hq, decide_eq_true hcontent⟩, rfl⟩

end Path

namespace Forest

theorem contentId?_rests (first : Nat) (cs : Forest Tag) :
    Path.contentId? kind key (rests first cs) =
      Path.contentId? kind key (Forest.pathsFrom first cs) := by
  cases cs with
  | nil => simp [rests, Forest.pathsFrom, Path.contentId?, Path.IsContent, Path.firstId?]
  | cons n cs => rfl

/-- The content paths of lawful content bear the first id of the entity, where nothing is imported
or exported. -/
theorem contentId?_pathsFrom {t : Forest Tag} {scope : Scope}
    (h : Forest.Stands Tag.standsLawfully scope t) (outside : isDeclaration scope.context = false)
    (first : Nat) :
    Path.contentId? kind key (Forest.pathsFrom first t) = Forest.firstId? kind key t := by
  induction t using Forest.induction generalizing scope first with
  | nil => rfl
  | cons d x cs rest hcs hrest =>
    obtain ⟨⟨⟨admitted, -, -⟩, below⟩, beside⟩ := h
    rw [Forest.pathsFrom, paths_eq_rests, Path.contentId?_append, hrest beside outside,
      Forest.firstId?, Node.firstId?]
    cases declares : isDeclaration d with
    | true => rw [Path.contentId?_declared declares, if_pos rfl]
    | false =>
      rw [if_neg Bool.false_ne_true, Path.contentId?_below declares, contentId?_rests,
        hcs below (Scope.isDeclaration_below outside declares)]
      intro target
      obtain ⟨e, rfl, -, -⟩ := Growth.exists_of_isEntityOf target
      exact exists_content_rests admitted outside below (first + 1)

theorem firstId?_append (t u : Forest Tag) : Forest.firstId? kind key (t ++ u) =
    (Forest.firstId? kind key t).or (Forest.firstId? kind key u) := by
  induction t with
  | nil => simp [Forest.firstId?]
  | cons n t ih => simp [Forest.firstId?, ih, Option.or_assoc]

theorem firstId?_liftInherited (t : Forest Tag) (b : Bool) :
    Forest.firstId? kind key (Forest.liftInherited b t) = Forest.firstId? kind key t := by
  induction t using Forest.induction generalizing b with
  | nil => rfl
  | cons d x cs rest hcs hrest =>
    rw [Forest.liftInherited, firstId?_append, hrest, Forest.firstId?]
    congr 1
    by_cases inherited : d = .inherited
    · subst inherited
      rw [Node.liftInherited, if_pos rfl, hcs]
      simp [Node.firstId?, isDeclaration, Tag.isEntityOf]
    · rw [Node.liftInherited, if_neg inherited]
      simp only [Forest.firstId?, Node.firstId?, hcs, Option.or_none]

theorem contentId?_flatMap {β : Type} {f : β → Forest Tag} {g : β → Option String} {l : List β}
    (h : ∀ x ∈ l, ∀ first, Path.contentId? kind key (Forest.pathsFrom first (f x)) = g x)
    (first : Nat) :
    Path.contentId? kind key (Forest.pathsFrom first (l.flatMap f)) = l.findSome? g := by
  induction l generalizing first with
  | nil => rfl
  | cons x l ih =>
    obtain ⟨own, others⟩ := List.forall_mem_cons.1 h
    rw [List.flatMap_cons, pathsFrom_append, Path.contentId?_append, own, ih others,
      ← List.findSome?_singleton (f := g), ← List.findSome?_append, List.singleton_append]

/-- What a root gives to the content bears the first id of the entity there, if it has content. -/
theorem contentId?_rootContent {t : Forest Tag} {n : Node Tag}
    (accepted : Forest.documentFault? t = none) (hn : n ∈ t) (first : Nat) :
    Path.contentId? kind key (Forest.pathsFrom first (rootContent n)) =
      if Forest.hasContent (rootContent n) then n.firstId? kind key else none := by
  obtain ⟨roots, grammar⟩ := Forest.documentFault?_none accepted
  have root := roots n hn
  have gnode := Forest.grammarFault?_of_mem grammar hn
  have some := hasContent_iff_paths (t := rootContent n) first
  cases filled : Forest.hasContent (rootContent n) with
  | false =>
    have none :
        (Forest.pathsFrom first (rootContent n)).filter (fun p => decide p.IsContent) = [] :=
      List.filter_eq_nil_iff.2 fun p hp content => by
        simp [some.2 ⟨p, hp, of_decide_eq_true content⟩] at filled
    rw [Path.contentId?, none]
    rfl
  | true =>
    obtain ⟨p, hp, content⟩ := some.1 filled
    rw [if_pos rfl]
    rcases n with ⟨d, x, cs⟩
    rw [Node.grammarFault?, Option.or_eq_none_iff] at gnode
    have stands (b : Bool) := stands_lawfully_liftInherited gnode.2 b
    cases d with
    | asset name =>
      have own : Node.firstId? kind key ⟨.asset name, x, cs⟩ = Forest.firstId? kind key cs := by
        simp [Node.firstId?, isDeclaration, Tag.isEntityOf]
      rw [own, ← firstId?_liftInherited cs false]
      exact contentId?_pathsFrom (stands false) rfl first
    | entity e =>
      rw [rootContent_entity, Forest.pathsFrom, paths_eq_rests, Forest.pathsFrom,
        List.append_nil] at hp ⊢
      obtain ⟨q, hq, rfl⟩ := List.mem_map.1 hp
      rw [Path.contentId?_below rfl fun _ => ⟨q, hq, (List.forall_mem_cons.1 content).2⟩,
        contentId?_rests, contentId?_pathsFrom (stands x.inherited) rfl, firstId?_liftInherited]
      rfl
    | _ => simp [Tag.isContainer] at root

end Forest

/-! ### Documents -/

namespace Standardize

/-- The first id that documents give to the entity outside of imports and exports, in roots that
end anywhere but there. -/
def firstId? (kind : EntityKind) (key : String) (inputs : List (Forest Tag)) : Option String :=
  inputs.findSome? (fun t => List.findSome?
    (fun n => if Forest.hasContent (rootContent n) then n.firstId? kind key else none) t)

theorem findSome?_contentPaths {inputs : List (Forest Tag)}
    (accepted : ∀ t ∈ inputs, Forest.documentFault? t = none) :
    (Address.contentPaths (combined inputs)).findSome? (Path.firstId? kind key) =
      firstId? kind key inputs :=
  Forest.contentId?_flatMap (fun _ ht => Forest.contentId?_flatMap
    (fun _ hn => Forest.contentId?_rootContent (accepted _ ht) hn)) 0

end Standardize

namespace Component

theorem Holds.extra {c : Component} {content : FieldKind → Forest Tag} (h : c.Holds content) :
    ∀ x ∈ c.fields, x.node.extra = {} := by
  intro x hx
  rw [h] at hx
  obtain ⟨f, -, rfl⟩ := List.mem_map.1 hx
  rfl

end Component

namespace Standardize

variable {t : Forest Tag} {c : Component}

theorem areApart_contentPaths (t : Forest Tag) : Path.AreApart (Address.contentPaths t) :=
  (Forest.areApart_pathsFrom t 0).filter _

/-- The component of a key bears the first id that the content paths bear, and nothing else. -/
theorem extra_componentOf (fits : Forest.Fits none t)
    (accepted : Address.AreAccepted (Address.contentPaths t))
    (h : componentOf (Address.contentPaths t) kind key = .ok (some c)) :
    c.extra = { id := (Address.contentPaths t).findSome? (Path.firstId? kind key) } := by
  obtain ⟨-, grown, e, extra, children, hgrown, ⟨root, found, -, rfl⟩, -, -, -, settled⟩ :=
    componentOf_eq_some h
  obtain ⟨_, _, rfl⟩ := Component.exists_settled settled
  have id := Address.id_grown (a := ⟨kind, key, .name⟩) (Address.areContent_contentPaths fits)
    (areApart_contentPaths t) hgrown found
  rw [id, Address.findSome?_view fits accepted]

theorem findSome?_of_componentOf_none (fits : Forest.Fits none t)
    (accepted : Address.AreAccepted (Address.contentPaths t))
    (h : componentOf (Address.contentPaths t) kind key = .ok none) :
    (Address.contentPaths t).findSome? (Path.firstId? kind key) = none := by
  have unseen : Address.view ⟨kind, key, .name⟩ (Address.contentPaths t) = [] :=
    view_of_componentOf_none h
  have view := Address.findSome?_view (a := ⟨kind, key, .name⟩) fits accepted
  rw [unseen] at view
  exact view.symm

end Standardize

namespace Form

open Standardize

variable {inputs : List (Forest Tag)} {f : Form} {c : Component}

/-- A component of a form that comes of documents without edits bears the first id that they give
to its entity outside of imports and exports, in roots that end anywhere but there. The nodes of
its fields bear none. -/
theorem extra_standardize (free : ∀ t ∈ inputs, Forest.IsEditFree t)
    (done : standardize inputs = .ok f) (found : f.component? key = some c) :
    c.extra = { id := firstId? c.kind key inputs } ∧ ∀ x ∈ c.fields, x.node.extra = {} := by
  obtain ⟨accepted, fits⟩ := fits_of_standardize free done
  have settled := Address.areAccepted_contentPaths accepted
  obtain ⟨own, holds⟩ := standardize_holdsContent free done key c found
  refine ⟨?_, holds.extra⟩
  subst own
  obtain ⟨-, -, _, _, declared, index, -, -, once, -, known, added⟩ := standardize_eq_ok done
  rw [← findSome?_contentPaths accepted]
  refine forall_component_addAll
    (P := fun _ c => c.extra =
      { id := (Address.contentPaths (combined inputs)).findSome? (Path.firstId? c.kind c.key) })
    (once.kind_of_imported fun x hx => (known _).2 (.inr ⟨x, hx, rfl⟩)) ?_ ?_
    (by simp [component?]) added c.key c found
  · intro kind key c origin made
    obtain ⟨rfl, rfl, -⟩ := holds_of_componentOf_some fits made
    have extra := extra_componentOf fits settled made
    exact extra
  · intro x _ unseen
    have none := findSome?_of_componentOf_none fits settled unseen
    exact congrArg (fun id => (⟨id, false⟩ : Extra)) none.symm

/-- A hall that is spoken of four times: without an id, in an import, and twice with an id. -/
def hallOfThree : List (Forest Tag) :=
  [[.branch (.asset "house")
      [.branch .inherited [.branch (.room "hall") [.branch (.field .name) [.leaf (.text "Hall")]]],
        .branch (.imported "base") [⟨.room "hall", .named "r0", []⟩]]],
    [.branch (.asset "house")
      [.branch .conditional [.branch (.onCondition "night") [⟨.room "hall", .named "r1", []⟩]],
        ⟨.room "hall", .named "r2",
          [⟨.field .description, .named "d1", [.leaf (.text "A hall.")]⟩]⟩]]]

theorem extra_standardize_hallOfThree :
    ∃ f c, standardize hallOfThree = .ok f ∧ f.component? "hall" = some c ∧
      (∀ t ∈ hallOfThree, Forest.IsEditFree t) ∧ c.extra = .named "r1" ∧
      c.extra = { id := firstId? c.kind "hall" hallOfThree } ∧
      ∀ x ∈ c.fields, x.node.extra = {} := by
  have keys : (standardize hallOfThree).toOption.map
      (fun f => (f.component? "hall").map Component.extra) = some (some (.named "r1")) := by
    cbv
  cases hf : standardize hallOfThree with
  | error e => simp [hf, Except.toOption] at keys
  | ok f =>
    obtain ⟨c, found, extra⟩ : ∃ c, f.component? "hall" = some c ∧ c.extra = .named "r1" := by
      simpa [hf, Except.toOption] using keys
    have free : ∀ t ∈ hallOfThree, Forest.IsEditFree t := by decide
    exact ⟨f, c, rfl, found, free, extra, extra_standardize free hf found⟩

def hallDescribed : List (Forest Tag) :=
  [[.branch (.asset "house")
    [.branch (.room "hall") [⟨.field .description, .named "d1", [.leaf (.text "A hall.")]⟩]]]]

/-- The only field that the document tells of has an id, and its field in the form has none. -/
theorem not_id_standardize_hallDescribed :
    ∃ f c x, standardize hallDescribed = .ok f ∧ f.component? "hall" = some c ∧ x ∈ c.fields ∧
      x.kind = .description ∧ x.node.extra.id = none ∧
      (hallDescribed.flatMap Forest.preorder).filter (fun n => n.1.field?.isSome) =
        [(.field .description, .named "d1")] := by
  have fields : (standardize hallDescribed).toOption.map (fun f => (f.component? "hall").map
      (fun c => c.fields.find? (fun x => x.kind = .description && x.node.extra.id.isNone))) =
      some (some (some
        ⟨.description, .branch (.field .description) [.leaf (.text "A hall.")]⟩)) := by
    cbv
  cases hf : standardize hallDescribed with
  | error e => simp [hf, Except.toOption] at fields
  | ok f =>
    obtain ⟨c, hc, hx⟩ := Option.map_eq_some_iff.1 (Option.some.inj (hf ▸ fields))
    exact ⟨f, c, _, rfl, hc, List.mem_of_find?_eq_some hx, rfl, rfl, by decide⟩

end Form

end WorldMarkup
