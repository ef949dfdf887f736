import WorldMarkup.Proofs.Form.Silence

/-!
The content paths of a forest that stands below a path, and where the path leads to. Main statement:
what the paths beside a forest see of it is told by the forest, and so are the tails of its nodes.
-/

set_option autoImplicit false
set_option relaxedAutoImplicit false

namespace WorldMarkup.Address

open Ownership (ownedPath? slot?)
open SplitChain

variable {a : Address} {docs : List (Path Tag)}

/-! ### Tails -/

/-- Content paths that lead through given rests. -/
def pathsBelow (above : Path Tag) (rests : List (Path Tag)) : List (Path Tag) :=
  (rests.filter (fun q => decide q.IsContent)).map (above ++ ·)

theorem pathsBelow_append (above : Path Tag) (l m : List (Path Tag)) :
    pathsBelow above (l ++ m) = pathsBelow above l ++ pathsBelow above m := by
  simp [pathsBelow]

theorem pathsBelow_map (above : Path Tag) {s : Step Tag}
    (hs : Standardize.isDeclaration s.data = false) (l : List (Path Tag)) :
    pathsBelow above (l.map (s :: ·)) = pathsBelow (above ++ [s]) l := by
  have hcontent (q : Path Tag) : Path.IsContent (s :: q) ↔ Path.IsContent q := by
    simp [Path.IsContent, hs]
  simp [pathsBelow, List.filter_map, Function.comp_def, hcontent]

/-- The content paths below some steps are those through a forest. -/
structure Covers (docs : List (Path Tag)) (above : Path Tag) (first : Nat) (t : Forest Tag) :
    Prop where
  early : ∀ s ∈ above, s.origin < first
  inside : ∀ q ∈ Forest.pathsFrom first t, q.IsContent → above ++ q ∈ docs
  only : ∀ p ∈ docs, ∀ s ∈ p, first ≤ s.origin → s.origin < first + Forest.size t →
    ∃ q ∈ Forest.pathsFrom first t, p = above ++ q

section Covers

variable {above : Path Tag} {first : Nat} {t : Tag} {e : Extra} {cs rest : Forest Tag}

theorem Covers.through (h : Covers docs above first (⟨t, e, cs⟩ :: rest)) {p : Path Tag}
    (hp : p ∈ docs) {s : Step Tag} (hs : s ∈ p) (hle : first ≤ s.origin)
    (hlt : s.origin < first + Node.size ⟨t, e, cs⟩) :
    ∃ q ∈ Forest.rests (first + 1) cs, p = above ++ ⟨t, e, first⟩ :: q := by
  have hsize : Forest.size (⟨t, e, cs⟩ :: rest) =
      Node.size ⟨t, e, cs⟩ + Forest.size rest := rfl
  obtain ⟨q, hq, rfl⟩ := h.only p hp s hs hle (by omega)
  rw [Forest.pathsFrom, List.mem_append] at hq
  rcases hq with hq | hq
  · rw [Forest.paths_eq_rests] at hq
    obtain ⟨r, hr, rfl⟩ := List.mem_map.1 hq
    exact ⟨r, hr, rfl⟩
  · exfalso
    rcases List.mem_append.1 hs with hs | hs
    · have := h.early s hs
      omega
    · have := (Forest.origin_bounds hq hs).1
      omega

theorem Covers.mem_docs (h : Covers docs above first (⟨t, e, cs⟩ :: rest))
    (hd : Standardize.isDeclaration t = false) {q : Path Tag}
    (hq : q ∈ Forest.rests (first + 1) cs) (hc : q.IsContent) :
    above ++ ⟨t, e, first⟩ :: q ∈ docs := by
  refine h.inside _ ?_ ?_
  · rw [Forest.pathsFrom, Forest.paths_eq_rests]
    exact List.mem_append_left _ (List.mem_map_of_mem hq)
  · intro s hs
    rcases List.mem_cons.1 hs with rfl | hs
    · exact hd
    · exact hc s hs

theorem Covers.below (h : Covers docs above first (⟨t, e, cs⟩ :: rest))
    (hd : Standardize.isDeclaration t = false) :
    Covers docs (above ++ [⟨t, e, first⟩]) (first + 1) cs where
  early := by
    intro s hs
    rcases List.mem_append.1 hs with hs | hs
    · have := h.early s hs
      omega
    · rw [List.mem_singleton.1 hs]
      exact Nat.lt_succ_self first
  inside := by
    intro q hq hc
    have hne : cs.isEmpty = false := by
      cases cs with
      | nil => simp [Forest.pathsFrom] at hq
      | cons => rfl
    have := h.mem_docs hd (by simpa [Forest.rests, hne] using hq) hc
    simpa using this
  only := by
    intro p hp s hs hle hlt
    obtain ⟨q, hq, rfl⟩ := h.through hp hs (by omega) (by rw [Forest.size_eq]; omega)
    rw [Forest.rests] at hq
    split at hq
    · exfalso
      obtain rfl := List.mem_singleton.1 hq
      rcases List.mem_append.1 hs with hs | hs
      · have := h.early s hs
        omega
      · rw [List.mem_singleton.1 hs] at hle
        simp only at hle
        omega
    · exact ⟨q, hq, by simp⟩

theorem Covers.beside (h : Covers docs above first (⟨t, e, cs⟩ :: rest)) :
    Covers docs above (first + Node.size ⟨t, e, cs⟩) rest where
  early := by
    intro s hs
    have := h.early s hs
    omega
  inside := by
    intro q hq hc
    exact h.inside q (by rw [Forest.pathsFrom]; exact List.mem_append_right _ hq) hc
  only := by
    intro p hp s hs hle hlt
    have hsize : Forest.size (⟨t, e, cs⟩ :: rest) =
        Node.size ⟨t, e, cs⟩ + Forest.size rest := rfl
    obtain ⟨q, hq, rfl⟩ := h.only p hp s hs (by omega) (by omega)
    rw [Forest.pathsFrom, List.mem_append] at hq
    rcases hq with hq | hq
    · exfalso
      rcases List.mem_append.1 hs with hs | hs
      · have := h.early s hs
        omega
      · have hq' : q ∈ Forest.pathsFrom first [(⟨t, e, cs⟩ : Node Tag)] := by
          simpa [Forest.pathsFrom] using hq
        have := (Forest.origin_bounds hq' hs).2
        have hone : Forest.size [(⟨t, e, cs⟩ : Node Tag)] = Node.size ⟨t, e, cs⟩ := rfl
        omega
    · exact ⟨q, hq, rfl⟩

end Covers

theorem tails_eq_nil {place : Place} (hp : place ≠ .within) {t : Forest Tag} (first : Nat)
    (h : a.leads place t = false) : a.tails first place t = [] := by
  induction t using Forest.induction generalizing place first with
  | nil => rfl
  | cons t e cs rest hcs hrest =>
    simp only [leads, Bool.or_eq_false_iff] at h
    obtain ⟨hnode, hr⟩ := h
    rw [tails, hrest hp _ hr, List.append_nil, tailsNode]
    rcases hnext : a.next? place t with _ | below
    · rfl
    · by_cases hc : t = .conditional
      · subst hc
        simp [hnode]
      · have hb : below ≠ .within := by
          rintro rfl
          simp [leadsNode, hnext] at hnode
        have hl : a.leads below cs = false := by
          rw [leadsNode, hnext] at hnode
          cases below <;> first | exact hnode | exact absurd rfl hb
        simp [hc, hcs hb _ hl, hb, hp]

/-- Within the field the tails are the paths. -/
theorem tails_within {t : Forest Tag} {c : Option Tag} (first : Nat) :
    (Forest.Fits c t → a.tails first .within t = Forest.pathsFrom first t) ∧
      (Forest.AreBranches c t → a.tailsBranches first .within t = Forest.pathsFrom first t) := by
  induction t using Forest.induction generalizing c first with
  | nil => exact ⟨fun _ => rfl, fun _ => rfl⟩
  | cons t e cs rest hcs hrest =>
    refine ⟨fun h => ?_, fun h => ?_⟩
    · obtain ⟨⟨-, hbelow⟩, hr⟩ := h
      rw [tails, Forest.pathsFrom, (hrest _).1 hr]
      refine congrArg (· ++ _) ?_
      rw [tailsNode, next?_within, Node.paths]
      by_cases hc : t = .conditional
      · rw [if_pos hc] at hbelow
        have hlead : a.leadsNode .within ⟨t, e, cs⟩ = true := by simp [leadsNode, next?_within]
        have hne : cs.isEmpty = false := by simpa using hbelow.1
        simp only [hc, if_true, hne, Bool.false_eq_true, if_false, (hcs _).2 hbelow.2]
        rw [hc] at hlead
        simp [hlead]
      · rw [if_neg hc] at hbelow
        simp only [hc, if_false, (hcs _).1 hbelow]
        cases cs with
        | nil => simp [Forest.pathsFrom]
        | cons n cs =>
          have hne := Forest.pathsFrom_ne_nil (by simp : n :: cs ≠ []) (first + 1)
          simp [hne]
    · obtain ⟨hbranch, hbelow, hr⟩ := h
      rw [tailsBranches, Forest.pathsFrom, (hrest _).2 hr]
      refine congrArg (· ++ _) ?_
      rw [Node.paths]
      cases cs with
      | nil =>
        have htouch : a.touchesNode (Place.within != .outside) ⟨t, e, []⟩ = true := by
          have ht : a.isTarget t = false := by
            refine isTarget_eq_false ?_
            cases t <;> simp_all [Tag.category, Tag.entity?]
          have hd : Standardize.isDeclaration t = false := by
            cases t <;> simp_all [Tag.category, Standardize.isDeclaration]
          simp [touchesNode, ht, hd]
        simp [leads, htouch]
      | cons n cs =>
        have hlead : a.leads .within (n :: cs) = true := by
          cases n
          simp [leads, leadsNode, next?_within]
        rw [if_pos hlead, (hcs _).1 hbelow]
        simp

theorem leadsNode_iff {place : Place} {t : Tag} {e : Extra} {cs : Forest Tag} (first : Nat) :
    a.leadsNode place ⟨t, e, cs⟩ = true ↔
      ∃ q ∈ Forest.rests (first + 1) cs, a.leadsPath place (⟨t, e, first⟩ :: q) = true := by
  have h : a.leadsNode place ⟨t, e, cs⟩ = a.leads place [⟨t, e, cs⟩] := by simp [leads]
  rw [h, leads_iff first]
  simp only [Forest.pathsFrom, Forest.paths_eq_rests, List.append_nil, List.mem_map]
  constructor
  · rintro ⟨p, ⟨q, hq, rfl⟩, hl⟩
    exact ⟨q, hq, hl⟩
  · rintro ⟨q, hq, hl⟩
    exact ⟨_, ⟨q, hq, rfl⟩, hl⟩

theorem lt_of_mem_seen (hdocs : AreContent docs) {above : Path Tag} {first : Nat} {t : Tag}
    {e : Extra} {cs rest : Forest Tag} (h : Covers docs above first (⟨t, e, cs⟩ :: rest))
    {seen : List Nat} (hseen : ∀ k ∈ seen, k < first) :
    ∀ k ∈ ((a.view (pathsBelow above (Node.paths first ⟨t, e, cs⟩))).flatMap
      (fun o => (sites o).map Site.branch)).reverse ++ seen,
      k < first + Node.size ⟨t, e, cs⟩ := by
  intro k hk
  rcases List.mem_append.1 hk with hk | hk
  · obtain ⟨o, ho, hk⟩ := List.mem_flatMap.1 (List.mem_reverse.1 hk)
    obtain ⟨s, hs, rfl⟩ := List.mem_map.1 hk
    obtain ⟨p, hp, hown⟩ := mem_view.1 ho
    obtain ⟨q, hq, rfl⟩ := List.mem_map.1 hp
    obtain ⟨hq, hc⟩ := List.mem_filter.1 hq
    have hdoc : above ++ q ∈ docs :=
      h.inside q (by rw [Forest.pathsFrom]; exact List.mem_append_left _ hq) (by simpa using hc)
    have hbr := (branches_ownedPath? (hdocs.runs _ hdoc) hown).subset (List.mem_map_of_mem hs)
    obtain ⟨-, -, b, hb, -, -, hsb⟩ := exists_of_mem_branches hbr
    change s.kept.branch < _
    rw [hsb]
    rcases List.mem_append.1 hb with hb | hb
    · have := h.early b hb
      omega
    · have hq' : q ∈ Forest.pathsFrom first [(⟨t, e, cs⟩ : Node Tag)] := by
        simpa [Forest.pathsFrom] using hq
      have := (Forest.origin_bounds hq' hb).2
      have hone : Forest.size [(⟨t, e, cs⟩ : Node Tag)] = Node.size ⟨t, e, cs⟩ := rfl
      omega
  · have := hseen k hk
    omega

/-- Where a walk stands with the steps above: they are a trunk, and all branches on it stand in
the field. -/
structure Stands (a : Address) (docs : List (Path Tag)) (above : Path Tag) (place : Place) :
    Prop where
  trunk : above.IsTrunk
  after : a.after? .outside above = some place
  notWithin : place ≠ .within
  active : ∀ s ∈ Path.branches [] above, (s.branch, some a.field) ∈ present a.kind (a.view docs)

theorem Stands.leadsPath {above : Path Tag} {place : Place} (h : Stands a docs above place)
    (q : Path Tag) : a.leadsPath .outside (above ++ q) = a.leadsPath place q :=
  leadsPath_append h.after q

theorem Stands.entity {above : Path Tag} {place : Place} (h : Stands a docs above place)
    {s : Step Tag} (hs : s.data.entity?.isSome = true) :
    Stands a docs (above ++ [s]) (if a.isTarget s.data then .owned else .outside) where
  trunk := h.trunk.append (.entity hs .nil)
  after := by
    rw [after?_append, h.after]
    simp [after?, next?_entity h.notWithin hs]
  notWithin := by split <;> simp
  active := by
    have hnot : s.data ≠ .conditional := by
      intro hd
      simp [hd, Tag.entity?] at hs
    rw [Path.branches_trunk h.trunk, Path.branches_cons hnot, Path.branches_nil, List.append_nil]
    exact h.active

theorem Stands.choice {above : Path Tag} {place : Place} (h : Stands a docs above place)
    {w b : Step Tag} (hw : w.data = .conditional) (hb : b.data.category = .branch)
    (hin : (b.origin, some a.field) ∈ present a.kind (a.view docs)) :
    Stands a docs (above ++ [w, b]) place where
  trunk := h.trunk.append (.choice hw hb .nil)
  after := by
    have hwc : w.data.isChain = true := by rw [hw]; rfl
    rw [after?_append, h.after]
    simp [after?, next?_chain place hwc, next?_chain place (isChain_of_branch hb)]
  notWithin := h.notWithin
  active := by
    rw [Path.branches_trunk h.trunk, Path.branches_choice hw hb, Path.branches_nil]
    intro s hs
    rcases List.mem_append.1 hs with hs | hs
    · exact h.active s hs
    · rw [List.mem_singleton.1 hs]
      exact hin

theorem not_lacks {s : Site} (h : (s.branch, some a.field) ∈ present a.kind (a.view docs)) :
    a.lacks (a.view docs) s = false := by
  simp [lacks, h]

/-- A tree that does not lead to the field shows nothing. -/
theorem shown_node_eq_nil (hdocs : AreContent docs) {above : Path Tag} {place : Place}
    {first : Nat} {t : Tag} {e : Extra} {cs rest : Forest Tag} (hs : Stands a docs above place)
    (h : Covers docs above first (⟨t, e, cs⟩ :: rest))
    (hl : a.leadsNode place ⟨t, e, cs⟩ = false) (seen : List Nat) :
    a.shown (a.view docs) seen
      (a.view (pathsBelow above (Node.paths first ⟨t, e, cs⟩))) = [] := by
  have member (p : Path Tag) (hp : p ∈ pathsBelow above (Node.paths first ⟨t, e, cs⟩)) :
      p ∈ docs ∧ ∃ q ∈ Forest.rests (first + 1) cs, p = above ++ ⟨t, e, first⟩ :: q := by
    obtain ⟨q, hq, rfl⟩ := List.mem_map.1 hp
    obtain ⟨hq, hc⟩ := List.mem_filter.1 hq
    refine ⟨h.inside q (by rw [Forest.pathsFrom]; exact List.mem_append_left _ hq)
      (by simpa using hc), ?_⟩
    rw [Forest.paths_eq_rests] at hq
    obtain ⟨r, hr, rfl⟩ := List.mem_map.1 hq
    exact ⟨r, hr, rfl⟩
  have elsewhere (q : Path Tag) (hq : q ∈ Forest.rests (first + 1) cs) :
      a.leadsPath place (⟨t, e, first⟩ :: q) = false := by
    cases hlead : a.leadsPath place (⟨t, e, first⟩ :: q) with
    | false => rfl
    | true =>
      rw [(leadsNode_iff first).2 ⟨q, hq, hlead⟩] at hl
      exact absurd hl (by simp)
  refine shown_eq_nil hdocs (fun p hp => (member p hp).1) ?_ ?_
  · intro p hp
    obtain ⟨-, q, hq, rfl⟩ := member p hp
    rw [hs.leadsPath, elsewhere q hq]
  · intro p hp o ho s hsb
    obtain ⟨hdoc, q, hq, rfl⟩ := member p hp
    right
    have hbr := (branches_ownedPath? (hdocs.runs _ hdoc) ho).subset hsb
    rw [Path.branches_trunk hs.trunk, List.mem_append] at hbr
    rcases hbr with hbr | hbr
    · exact not_lacks (hs.active s hbr)
    · cases hlack : a.lacks (a.view docs) s with
      | false => rfl
      | true =>
        exfalso
        obtain ⟨w, hw, -, -, -, hsw, -⟩ := exists_of_mem_branches hbr
        obtain ⟨p', hp', hlead', s', hs', -, horigin⟩ :=
          (mem_reach_view hdocs).1 ((lacks_iff s).1 hlack).1
        have hbound : first ≤ w.origin ∧ w.origin < first + Node.size ⟨t, e, cs⟩ := by
          have hmem : (⟨t, e, first⟩ :: q : Path Tag) ∈
              Forest.pathsFrom first [(⟨t, e, cs⟩ : Node Tag)] := by
            simp only [Forest.pathsFrom, Forest.paths_eq_rests, List.append_nil]
            exact List.mem_map_of_mem hq
          exact Forest.origin_bounds hmem hw
        obtain ⟨q', hq', rfl⟩ := h.through hp' hs' (by omega) (by omega)
        rw [hs.leadsPath, elsewhere q' hq'] at hlead'
        exact absurd hlead' (by simp)

theorem shown_of_leadsPath (hdocs : AreContent docs) {ps : List (Path Tag)}
    (hps : ∀ p ∈ ps, p ∈ docs) (hl : ∀ p ∈ ps, a.leadsPath .outside p = true)
    (seen : List Nat) :
    a.shown (a.view docs) seen (a.view ps) = ps.map Path.kept := by
  induction ps generalizing seen with
  | nil => rfl
  | cons p ps ih =>
    have hruns := hdocs.runs p (hps p (by simp))
    obtain ⟨o, ho, hslot⟩ := (leadsPath_iff_slot? hruns).1 (hl p (by simp))
    have hview : a.view (p :: ps) = o :: a.view ps := by simp [view, ho]
    rw [hview, shown, ih (fun q hq => hps q (by simp [hq])) (fun q hq => hl q (by simp [hq])),
      shownOf, if_pos hslot, kept_of_leadsPath hruns (hl p (by simp)) ho]
    rfl

/-- A fitting path that leads to the field stays outside of imports and exports. -/
theorem isContent_of_leadsPath {place : Place} (hp : place ≠ .within) :
    ∀ {p : Path Tag} {c : Option Tag}, a.leadsPath place p = true →
      (Path.Fits c p → p.IsContent) ∧ (Path.StartsInBranch c p → p.IsContent)
  | [], _, _ => ⟨fun _ => by simp [Path.IsContent], fun h => absurd h id⟩
  | s :: rest, c, hl => by
    rw [leadsPath] at hl
    rcases hnext : a.next? place s.data with _ | below
    · simp [hnext] at hl
    · rw [hnext] at hl
      have hd : Standardize.isDeclaration s.data = false := by
        cases hs : s.data <;> simp_all [Standardize.isDeclaration] <;> cases place <;>
          simp_all [next?]
      have more (h : Path.IsContent rest) : Path.IsContent (s :: rest) := by
        intro x hx
        rcases List.mem_cons.1 hx with rfl | hx
        · exact hd
        · exact h x hx
      by_cases hw : below = .within
      · subst hw
        have hfield : s.data.category = .field ∧ s.data ≠ .conditional := by
          cases hs : s.data with
          | field g => simp [Tag.category]
          | entity e =>
            rw [hs, next?_entity hp rfl] at hnext
            split at hnext <;> simp at hnext
          | _ => cases place <;> simp_all [next?]
        refine ⟨fun h => more ?_, fun h => ?_⟩
        · have hfits := h.2
          rw [if_neg hfield.2] at hfits
          intro x hx
          have := (Path.isKept_of_fits (.inl hfield.1) rest).1 hfits x hx
          cases hxd : x.data <;> simp_all [Tag.isKept, Tag.isChain, Tag.category,
            Standardize.isDeclaration]
        · have := h.1
          rw [hfield.1] at this
          exact absurd this (by simp)
      · have ih {c : Option Tag} := isContent_of_leadsPath hw (p := rest) (c := c) hl
        refine ⟨fun h => more ?_, fun h => more (ih.1 h.2)⟩
        have hfits := h.2
        split at hfits
        · exact ih.2 hfits
        · exact ih.1 hfits

theorem rests_of_ne_nil {cs : Forest Tag} (h : cs ≠ []) (first : Nat) :
    Forest.rests first cs = Forest.pathsFrom first cs := by
  cases cs with
  | nil => exact absurd rfl h
  | cons n cs => rfl

theorem view_append (a : Address) (l m : List (Path Tag)) :
    a.view (l ++ m) = a.view l ++ a.view m := List.filterMap_append

theorem touchesNode_branch {entered : Bool} {t : Tag} (ht : t.category = .branch) {e : Extra}
    {cs : Forest Tag} (first : Nat) :
    a.touchesNode entered ⟨t, e, cs⟩ =
      ((Forest.rests first cs).filter (fun q => decide q.IsContent)).any
        (a.touchesPath entered) := by
  have htarget : a.isTarget t = false := by
    refine isTarget_eq_false ?_
    cases t <;> simp_all [Tag.category, Tag.entity?]
  have hd : Standardize.isDeclaration t = false := by
    cases t <;> simp_all [Tag.category, Standardize.isDeclaration]
  rw [touchesNode, htarget, hd]
  cases cs with
  | nil => simp [Forest.rests, Path.IsContent, touchesPath]
  | cons n cs =>
    have hiff : a.touches entered (n :: cs) = true ↔ _ := touches_iff first
    rw [rests_of_ne_nil (by simp), Bool.eq_iff_iff, List.any_filter, List.any_eq_true]
    simp only [Bool.not_false, Bool.true_and, Bool.false_eq_true, if_false, List.isEmpty_cons, hiff,
      Bool.and_eq_true, decide_eq_true_eq]
    rfl

theorem kept_append_singleton (p : Path Tag) (s : Step Tag) :
    Path.kept (p ++ [s]) = if s.data.isKept then p.kept ++ [s] else p.kept := by
  rw [kept_append]
  by_cases hs : s.data.isKept = true <;> simp [Path.kept, hs]

end WorldMarkup.Address
