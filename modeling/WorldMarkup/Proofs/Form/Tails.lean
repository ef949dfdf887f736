import WorldMarkup.Proofs.Form.Covering

/-!
Completed paths and the tails of the content they come from. Main statement: what is shown of the
content paths in a field are the tails of the content there, whatever conditionals stand around
the component, and each branch once.
-/

set_option autoImplicit false
set_option relaxedAutoImplicit false

namespace WorldMarkup.Address

open Ownership (ownedPath? slot?)
open SplitChain

variable {a : Address} {docs : List (Path Tag)}

/-! ### What is shown are the tails -/

section Shown

variable {above : Path Tag} {place : Place} {first : Nat} {t : Tag} {e : Extra}
  {cs rest : Forest Tag} {c : Option Tag}

theorem Covers.mem_of_leadsPath (h : Covers docs above first (⟨t, e, cs⟩ :: rest))
    (hp : place ≠ .within) (hfits : Forest.Fits c (⟨t, e, cs⟩ :: rest)) {q : Path Tag}
    (hq : q ∈ Forest.rests (first + 1) cs)
    (hl : a.leadsPath place (⟨t, e, first⟩ :: q) = true) :
    above ++ ⟨t, e, first⟩ :: q ∈ docs := by
  have hmem : ⟨t, e, first⟩ :: q ∈ Forest.pathsFrom first (⟨t, e, cs⟩ :: rest) :=
    Forest.mem_pathsFrom_of_mem_rests hq
  exact h.inside _ hmem
    ((isContent_of_leadsPath hp hl).1 (Path.fits_of_mem.1 hfits _ hmem))

theorem mem_reach_of_leadsNode (hdocs : AreContent docs) (hs : Stands a docs above place)
    (h : Covers docs above first (⟨t, e, cs⟩ :: rest))
    (hfits : Forest.Fits c (⟨t, e, cs⟩ :: rest)) (ht : t = .conditional)
    (hl : a.leadsNode place ⟨t, e, cs⟩ = true) :
    (first, some a.field) ∈ reach a.kind (a.view docs) := by
  obtain ⟨q, hq, hlq⟩ := (leadsNode_iff first).1 hl
  refine (mem_reach_view hdocs).2 ⟨_, h.mem_of_leadsPath hs.notWithin hfits hq hlq, ?_,
    ⟨t, e, first⟩, by simp, ht, rfl⟩
  rw [hs.leadsPath]
  exact hlq

/-- The field's own node shows its content. -/
theorem shown_field (hdocs : AreContent docs) (hs : Stands a docs above place)
    (h : Covers docs above first (⟨t, e, cs⟩ :: rest))
    (hfits : Forest.Fits c (⟨t, e, cs⟩ :: rest)) (hf : t.category = .field)
    (hnext : a.next? place t = some .within) (seen : List Nat) :
    a.shown (a.view docs) seen (a.view (pathsBelow above (Node.paths first ⟨t, e, cs⟩))) =
      (a.tailsNode first place ⟨t, e, cs⟩).map (above.kept ++ ·) := by
  have hcond : t ≠ .conditional := by
    rintro rfl
    simp [Tag.category] at hf
  have hkept : t.isKept = false := by
    cases t <;> simp_all [Tag.category, Tag.isKept, Tag.isChain]
  have hcs : Forest.Fits (some t) cs := by
    have := hfits.1.2
    rwa [if_neg hcond] at this
  have hlead (q : Path Tag) : a.leadsPath place (⟨t, e, first⟩ :: q) = true := by
    simp [leadsPath, hnext, leadsPath_within]
  have htails : a.tailsNode first place ⟨t, e, cs⟩ = Forest.rests (first + 1) cs := by
    rw [tailsNode, hnext]
    simp only [hcond, if_false, hs.notWithin, (tails_within _).1 hcs, decide_true, Bool.true_and]
    cases cs with
    | nil => rfl
    | cons n cs =>
      have hne := Forest.pathsFrom_ne_nil (by simp : n :: cs ≠ []) (first + 1)
      simp [hne, rests_of_ne_nil]
  have hpath (q : Path Tag) (hq : q ∈ Forest.rests (first + 1) cs) :
      Path.Fits c (⟨t, e, first⟩ :: q) :=
    Path.fits_of_mem.1 hfits _ (Forest.mem_pathsFrom_of_mem_rests hq)
  have hbelow : pathsBelow above (Node.paths first ⟨t, e, cs⟩) =
      (Forest.rests (first + 1) cs).map (fun q => above ++ ⟨t, e, first⟩ :: q) := by
    rw [pathsBelow, Forest.paths_eq_rests, List.filter_eq_self.2, List.map_map]
    · rfl
    · intro p hp
      obtain ⟨q, hq, rfl⟩ := List.mem_map.1 hp
      exact decide_eq_true ((isContent_of_leadsPath hs.notWithin (hlead q)).1 (hpath q hq))
  rw [htails, hbelow, shown_of_leadsPath hdocs, List.map_map]
  · refine List.map_congr_left (fun q hq => ?_)
    have hall : ∀ x ∈ q, x.data.isKept = true := by
      have hq := (hpath q hq).2
      rw [if_neg hcond] at hq
      exact (Path.isKept_of_fits (.inl hf) q).1 hq
    have hself : Path.kept q = q := List.filter_eq_self.2 hall
    have hcons : Path.kept (⟨t, e, first⟩ :: q) = Path.kept q := by simp [Path.kept, hkept]
    simp only [Function.comp_apply, kept_append, hcons, hself]
  · intro p hp
    obtain ⟨q, hq, rfl⟩ := List.mem_map.1 hp
    exact h.mem_of_leadsPath hs.notWithin hfits hq (hlead q)
  · intro p hp
    obtain ⟨q, -, rfl⟩ := List.mem_map.1 hp
    rw [hs.leadsPath]
    exact hlead q

theorem bounds_of_mem_rests {q : Path Tag} (hq : q ∈ Forest.rests (first + 1) cs) {x : Step Tag}
    (hx : x ∈ q) : first + 1 ≤ x.origin ∧ x.origin < first + Node.size ⟨t, e, cs⟩ := by
  rw [Forest.rests] at hq
  split at hq
  · obtain rfl := List.mem_singleton.1 hq
    exact absurd hx (by simp)
  · have := Forest.origin_bounds hq hx
    rw [Forest.size_eq]
    omega

section Branch

variable {w : Step Tag}

theorem leadsPath_of_not_leads (hs : Stands a docs above place) (hw : w.data = .conditional)
    (hb : t.category = .branch) (hl : a.leads place cs = false) {q : Path Tag}
    (hq : q ∈ Forest.rests (first + 1) cs) :
    a.leadsPath .outside (above ++ w :: ⟨t, e, first⟩ :: q) = false := by
  have chain : w.data.isChain = true := by
    rw [hw]
    rfl
  rw [hs.leadsPath, leadsPath, next?_chain place chain]
  simp only [leadsPath, next?_chain place (isChain_of_branch hb)]
  cases cs with
  | nil =>
    obtain rfl := List.mem_singleton.1 hq
    simp [leadsPath, hs.notWithin]
  | cons n cs =>
    rw [rests_of_ne_nil (by simp)] at hq
    cases hlead : a.leadsPath place q with
    | false => rfl
    | true =>
      rw [(leads_iff (first + 1)).2 ⟨q, hq, hlead⟩] at hl
      exact absurd hl (by simp)

theorem not_exists_leading (hs : Stands a docs above place) (hw : w.data = .conditional)
    (h : Covers docs (above ++ [w]) first (⟨t, e, cs⟩ :: rest)) (hb : t.category = .branch)
    (hl : a.leads place cs = false) {n : Nat} (hle : first ≤ n)
    (hlt : n < first + Node.size ⟨t, e, cs⟩) :
    ¬ ∃ p ∈ docs, a.leadsPath .outside p = true ∧ ∃ x ∈ p, x.origin = n := by
  rintro ⟨p, hp, leads, x, hx, rfl⟩
  obtain ⟨q, hq, rfl⟩ := h.through hp hx hle hlt
  have elsewhere := leadsPath_of_not_leads (e := e) hs hw hb hl hq
  simp only [List.append_assoc, List.cons_append, List.nil_append] at leads
  simp [leads] at elsewhere

/-- The field lacks such a branch of a conditional that reaches it, and none further down. -/
theorem lacksOnly_of_not_leads (hdocs : AreContent docs) (hs : Stands a docs above place)
    (hw : w.data = .conditional) (hreach : (w.origin, some a.field) ∈ reach a.kind (a.view docs))
    (h : Covers docs (above ++ [w]) first (⟨t, e, cs⟩ :: rest)) (hb : t.category = .branch)
    (hl : a.leads place cs = false) :
    LacksOnly a docs above w ⟨t, e, first⟩
      ((Forest.rests (first + 1) cs).filter (fun q => decide q.IsContent)) where
  trunk := hs.trunk
  choice := hw
  branch := hb
  inside q hq := by
    have plain : Standardize.isDeclaration t = false := by
      cases t <;> simp_all [Tag.category, Standardize.isDeclaration]
    obtain ⟨hq, content⟩ := List.mem_filter.1 hq
    simpa using h.mem_docs plain hq (of_decide_eq_true content)
  elsewhere q hq := leadsPath_of_not_leads hs hw hb hl (List.mem_filter.1 hq).1
  active s hsb := by
    refine ⟨not_lacks (hs.active s hsb), ?_⟩
    obtain ⟨-, -, x, hx, -, -, origin⟩ := exists_of_mem_branches hsb
    have early := h.early x (List.mem_append_left _ hx)
    simp only [origin]
    omega
  lacking := by
    refine (lacks_iff _).2 ⟨hreach, fun present => ?_⟩
    obtain ⟨p, hp, leads, s, hsb, origin⟩ := (mem_present_view hdocs).1 present
    obtain ⟨-, -, x, hx, -, -, number⟩ := exists_of_mem_branches hsb
    refine not_exists_leading hs hw h hb hl (Nat.le_refl first) ?_
      ⟨p, hp, leads, x, hx, number.symm.trans origin⟩
    rw [Forest.size_eq]
    omega
  deep q hq s hsb := by
    have hq := (List.mem_filter.1 hq).1
    obtain ⟨x, hx, y, hy, -, wrapper, branch⟩ := exists_of_mem_branches hsb
    have bounds := bounds_of_mem_rests (t := t) (e := e) hq hx
    have bounds' := bounds_of_mem_rests (t := t) (e := e) hq hy
    refine ⟨Bool.eq_false_iff.2 fun lacks => ?_, by simp only [branch]; omega⟩
    obtain ⟨p, hp, leads, z, hz, -, number⟩ :=
      (mem_reach_view hdocs).1 ((lacks_iff s).1 lacks).1
    exact not_exists_leading hs hw h hb hl (by omega) bounds.2
      ⟨p, hp, leads, z, hz, number.trans wrapper⟩

/-- A branch that does not lead to the field is stood in for when the component has content in
it. -/
theorem shown_other_branch (hdocs : AreContent docs) (hs : Stands a docs above place)
    (hw : w.data = .conditional) (hreach : (w.origin, some a.field) ∈ reach a.kind (a.view docs))
    (h : Covers docs (above ++ [w]) first (⟨t, e, cs⟩ :: rest)) (hb : t.category = .branch)
    (hl : a.leads place cs = false) {seen : List Nat} (hseen : ∀ k ∈ seen, k < first) :
    a.shown (a.view docs) seen
        (a.view (pathsBelow (above ++ [w]) (Node.paths first ⟨t, e, cs⟩))) =
      if a.touchesNode (place != .outside) ⟨t, e, cs⟩ then
        [Path.kept (above ++ [w]) ++ [⟨t, e, first⟩]] else [] := by
  have plain : Standardize.isDeclaration t = false := by
    cases t <;> simp_all [Tag.category, Standardize.isDeclaration]
  have paths : pathsBelow (above ++ [w]) (Node.paths first ⟨t, e, cs⟩) =
      ((Forest.rests (first + 1) cs).filter (fun q => decide q.IsContent)).map
        (fun q => above ++ w :: ⟨t, e, first⟩ :: q) := by
    rw [Forest.paths_eq_rests, pathsBelow_map _ plain, pathsBelow]
    simp
  have kept : Path.kept (above ++ [w]) ++ [⟨t, e, first⟩] =
      Path.kept (above ++ [w, ⟨t, e, first⟩]) := by
    have split : above ++ [w, ⟨t, e, first⟩] = (above ++ [w]) ++ [⟨t, e, first⟩] := by simp
    rw [split, kept_append_singleton (above ++ [w]), if_pos (isKept_of_isChain
      (isChain_of_branch hb))]
  have unseen : first ∉ seen := fun known => Nat.lt_irrefl _ (hseen first known)
  rw [paths, kept, touchesNode_branch hb (first + 1)]
  exact (lacksOnly_of_not_leads hdocs hs hw hreach h hb hl).shown_eq hdocs hs.after unseen

end Branch

end Shown

theorem next?_of_standsIn {place below : Place} (hp : place ≠ .within) {c : Option Tag} {t : Tag}
    (hst : t.standsIn c = true) (hcond : t ≠ .conditional) (hentity : t.entity? = none)
    (hnext : a.next? place t = some below) : t.category = .field ∧ below = .within := by
  have hbranch : t.category ≠ .branch := by
    intro hb
    cases c with
    | none => cases t <;> simp_all [Tag.standsIn, Tag.category]
    | some c =>
      have hallows : c.allows t = true := by
        simp only [Tag.standsIn, Bool.and_eq_true] at hst
        exact hst.2
      cases t <;> simp [Tag.category] at hb <;> cases c <;>
        simp [Tag.allows, Tag.isInlineContent, Tag.inEntity, Tag.entity?, Tag.isText, Tag.text?]
          at hallows
  cases place with
  | within => exact absurd rfl hp
  | outside => cases t <;> simp_all [next?, Tag.category, Tag.entity?]
  | owned =>
    cases t with
    | field g =>
      refine ⟨rfl, ?_⟩
      simp only [next?] at hnext
      split at hnext
      · exact (Option.some.inj hnext).symm
      · simp at hnext
    | _ => simp_all [next?, Tag.category, Tag.entity?]

/-- What is shown of the content paths through the forest are its tails. -/
structure ShowsTails (a : Address) (docs : List (Path Tag)) (t : Forest Tag) : Prop where
  content {c : Option Tag} {above : Path Tag} {place : Place} {first : Nat} {seen : List Nat}
    (hs : Stands a docs above place) (hseen : ∀ k ∈ seen, k < first) (hfits : Forest.Fits c t)
    (h : Covers docs above first t) :
    a.shown (a.view docs) seen (a.view (pathsBelow above (Forest.pathsFrom first t))) =
      (a.tails first place t).map (above.kept ++ ·)
  branches {c : Option Tag} {above : Path Tag} {place : Place} {first : Nat} {seen : List Nat}
    (hs : Stands a docs above place) (hseen : ∀ k ∈ seen, k < first) {w : Step Tag}
    (hw : w.data = .conditional) (hreach : (w.origin, some a.field) ∈ reach a.kind (a.view docs))
    (hfits : Forest.AreBranches c t) (h : Covers docs (above ++ [w]) first t) :
    a.shown (a.view docs) seen (a.view (pathsBelow (above ++ [w]) (Forest.pathsFrom first t))) =
      (a.tailsBranches first place t).map (Path.kept (above ++ [w]) ++ ·)

section Node

variable {above : Path Tag} {place : Place} {first : Nat} {t : Tag} {e : Extra}
  {cs rest : Forest Tag} {c : Option Tag} {seen : List Nat}

theorem ShowsTails.conditional (hcs : ShowsTails a docs cs) (hdocs : AreContent docs)
    (hs : Stands a docs above place) (h : Covers docs above first (⟨.conditional, e, cs⟩ :: rest))
    (hfits : Forest.Fits c (⟨.conditional, e, cs⟩ :: rest))
    (hl : a.leadsNode place ⟨.conditional, e, cs⟩ = true) (hseen : ∀ k ∈ seen, k < first) :
    a.shown (a.view docs) seen
        (a.view (pathsBelow above (Node.paths first ⟨.conditional, e, cs⟩))) =
      (a.tailsNode first place ⟨.conditional, e, cs⟩).map (above.kept ++ ·) := by
  have inside := hfits.1.2
  rw [if_pos rfl] at inside
  have kept : Path.kept (above ++ [⟨.conditional, e, first⟩]) =
      above.kept ++ [⟨.conditional, e, first⟩] := by
    rw [kept_append_singleton]
    rfl
  have shown := hcs.branches hs (fun k hk => Nat.lt_succ_of_lt (hseen k hk))
    (w := ⟨.conditional, e, first⟩) rfl (mem_reach_of_leadsNode hdocs hs h hfits rfl hl) inside.2
    (h.below rfl)
  rw [Forest.paths_eq_rests, rests_of_ne_nil inside.1, pathsBelow_map _ rfl, shown, kept,
    tailsNode, next?_chain place rfl]
  simp [hl]

theorem ShowsTails.entity (hcs : ShowsTails a docs cs) (hs : Stands a docs above place)
    (h : Covers docs above first (⟨t, e, cs⟩ :: rest)) (ht : t.entity?.isSome = true)
    (hfits : Forest.Fits (some t) cs) (hl : a.leadsNode place ⟨t, e, cs⟩ = true)
    (hseen : ∀ k ∈ seen, k < first) :
    a.shown (a.view docs) seen (a.view (pathsBelow above (Node.paths first ⟨t, e, cs⟩))) =
      (a.tailsNode first place ⟨t, e, cs⟩).map (above.kept ++ ·) := by
  obtain ⟨x, rfl⟩ : ∃ x, t = .entity x := by
    cases t <;> simp_all [Tag.entity?]
  have filled : cs ≠ [] := by
    rintro rfl
    by_cases target : a.isTarget (.entity x) = true <;>
      simp [leadsNode, next?_entity hs.notWithin ht, target, leads] at hl
  have kept : Path.kept (above ++ [⟨.entity x, e, first⟩]) = above.kept := by
    rw [kept_append_singleton, if_neg (by simp [Tag.isKept, Tag.isChain, Tag.category])]
  have shown := hcs.content (hs.entity (s := ⟨.entity x, e, first⟩) ht)
    (fun k hk => Nat.lt_succ_of_lt (hseen k hk)) hfits (h.below rfl)
  have outside : (if a.isTarget (.entity x) then Place.owned else .outside) ≠ .within := by
    split <;> simp
  rw [Forest.paths_eq_rests, rests_of_ne_nil filled, pathsBelow_map _ rfl, shown, kept,
    tailsNode, next?_entity hs.notWithin ht]
  simp [outside, hs.notWithin]

theorem ShowsTails.node (hcs : ShowsTails a docs cs) (hdocs : AreContent docs)
    (hs : Stands a docs above place) (h : Covers docs above first (⟨t, e, cs⟩ :: rest))
    (hfits : Forest.Fits c (⟨t, e, cs⟩ :: rest)) (hseen : ∀ k ∈ seen, k < first) :
    a.shown (a.view docs) seen (a.view (pathsBelow above (Node.paths first ⟨t, e, cs⟩))) =
      (a.tailsNode first place ⟨t, e, cs⟩).map (above.kept ++ ·) := by
  cases hl : a.leadsNode place ⟨t, e, cs⟩ with
  | false =>
    have silent := tails_eq_nil (a := a) hs.notWithin (t := [⟨t, e, cs⟩]) first
      (by simp [leads, hl])
    simp only [tails, List.append_nil] at silent
    rw [shown_node_eq_nil hdocs hs h hl, silent]
    rfl
  | true =>
    by_cases conditional : t = .conditional
    · subst conditional
      exact hcs.conditional hdocs hs h hfits hl hseen
    · have inside := hfits.1.2
      rw [if_neg conditional] at inside
      by_cases entity : t.entity?.isSome = true
      · exact hcs.entity hs h entity inside hl hseen
      · rcases next : a.next? place t with _ | below
        · simp [leadsNode, next] at hl
        obtain ⟨field, rfl⟩ := next?_of_standsIn hs.notWithin hfits.1.1 conditional
          (by simpa using entity) next
        exact shown_field hdocs hs h hfits field next seen

theorem present_of_leads (hdocs : AreContent docs) (hs : Stands a docs above place)
    {w : Step Tag} (hw : w.data = .conditional)
    (h : Covers docs (above ++ [w]) first (⟨t, e, cs⟩ :: rest)) (hb : t.category = .branch)
    (hfits : Forest.Fits c cs) (hl : a.leads place cs = true) (hne : cs ≠ []) :
    (first, some a.field) ∈ present a.kind (a.view docs) := by
  have plain : Standardize.isDeclaration t = false := by
    cases t <;> simp_all [Tag.category, Standardize.isDeclaration]
  have chain : w.data.isChain = true := by
    rw [hw]
    rfl
  obtain ⟨q, hq, leads⟩ := (leads_iff (first + 1)).1 hl
  have content := (isContent_of_leadsPath hs.notWithin leads).1 (Path.fits_of_mem.1 hfits q hq)
  have there := h.mem_docs plain (by rw [rests_of_ne_nil hne]; exact hq) content
  simp only [List.append_assoc, List.cons_append, List.nil_append] at there
  refine (mem_present_view hdocs).2 ⟨_, there, ?_, ?_⟩
  · rw [hs.leadsPath]
    simp [leadsPath, next?_chain place chain, next?_chain place (isChain_of_branch hb), leads]
  · refine ⟨⟨w.origin, first, Path.kept (above ++ [w, ⟨t, e, first⟩])⟩, ?_, rfl⟩
    rw [Path.branches_trunk hs.trunk, Path.branches_choice hw hb]
    simp

theorem ShowsTails.branch (hcs : ShowsTails a docs cs) (hdocs : AreContent docs)
    (hs : Stands a docs above place) {w : Step Tag} (hw : w.data = .conditional)
    (h : Covers docs (above ++ [w]) first (⟨t, e, cs⟩ :: rest)) (hb : t.category = .branch)
    (hfits : Forest.Fits c cs) (hl : a.leads place cs = true) (hseen : ∀ k ∈ seen, k < first) :
    a.shown (a.view docs) seen
        (a.view (pathsBelow (above ++ [w]) (Node.paths first ⟨t, e, cs⟩))) =
      ((a.tails (first + 1) place cs).map (⟨t, e, first⟩ :: ·)).map
        (Path.kept (above ++ [w]) ++ ·) := by
  have filled : cs ≠ [] := by
    rintro rfl
    simp [leads] at hl
  have plain : Standardize.isDeclaration t = false := by
    cases t <;> simp_all [Tag.category, Standardize.isDeclaration]
  have split : above ++ [w] ++ [⟨t, e, first⟩] = above ++ [w, ⟨t, e, first⟩] := by simp
  have shown := hcs.content
    (hs.choice hw (b := ⟨t, e, first⟩) hb (present_of_leads hdocs hs hw h hb hfits hl filled))
    (fun k hk => Nat.lt_succ_of_lt (hseen k hk)) hfits (split ▸ h.below plain)
  have kept : Path.kept (above ++ [w, ⟨t, e, first⟩]) =
      Path.kept (above ++ [w]) ++ [⟨t, e, first⟩] := by
    rw [← split, kept_append_singleton (above ++ [w]), if_pos (isKept_of_isChain
      (isChain_of_branch hb))]
  rw [Forest.paths_eq_rests, rests_of_ne_nil filled, pathsBelow_map _ plain, split, shown, kept,
    List.map_map]
  refine List.map_congr_left fun q _ => ?_
  simp

end Node

/-- What is shown of the content paths in the field are the tails there. -/
theorem showsTails (hdocs : AreContent docs) (t : Forest Tag) : ShowsTails a docs t := by
  induction t using Forest.induction with
  | nil => exact ⟨fun _ _ _ _ => rfl, fun _ _ _ _ _ _ _ => rfl⟩
  | cons t e cs rest hcs hrest =>
    constructor
    · intro c above place first seen hs hseen hfits h
      rw [Forest.pathsFrom, pathsBelow_append, view_append, shown_append, tails, List.map_append,
        hrest.content hs (lt_of_mem_seen hdocs h hseen) hfits.2 h.beside,
        hcs.node hdocs hs h hfits hseen]
    · intro c above place first seen hs hseen w hw hreach hfits h
      obtain ⟨branch, inside, beside⟩ := hfits
      rw [Forest.pathsFrom, pathsBelow_append, view_append, shown_append, tailsBranches,
        List.map_append,
        hrest.branches hs (lt_of_mem_seen hdocs h hseen) hw hreach beside h.beside]
      refine congrArg (· ++ _) ?_
      cases hl : a.leads place cs with
      | false =>
        rw [shown_other_branch hdocs hs hw hreach h branch hl hseen, if_neg Bool.false_ne_true]
        split <;> rfl
      | true => rw [hcs.branch hdocs hs hw h branch inside hl hseen, if_pos rfl]

def contentPaths (t : Forest Tag) : List (Path Tag) :=
  (Forest.paths t).filter (fun p => decide p.IsContent)

theorem areContent_contentPaths {t : Forest Tag} (h : Forest.Fits none t) :
    AreContent (contentPaths t) where
  runs := by
    intro p hp
    obtain ⟨hp, hc⟩ := List.mem_filter.1 hp
    exact Path.runs_of_fits p (.inl rfl) (Path.fits_of_mem.1 h p hp) (of_decide_eq_true hc)
  agree := by
    intro x y x' y' s s' hp hp' horigin
    exact Forest.prefix_eq_of_origin_eq (List.mem_filter.1 hp).1 (List.mem_filter.1 hp').1 horigin

/-- In the slot of a field the completed paths of a component hold the tails of the content
there. -/
theorem complete_tails (a : Address) {t : Forest Tag} (h : Forest.Fits none t) :
    ((complete a.kind a.key (a.view (contentPaths t))).filter
      (fun q => decide (slot? a.kind q = some a.field))).map Path.kept =
        a.tails 0 .outside t := by
  have hdocs := areContent_contentPaths h
  have hstands : Stands a (contentPaths t) [] .outside :=
    ⟨.nil, rfl, by simp, by simp [Path.branches_nil]⟩
  have hcovers : Covers (contentPaths t) [] 0 t := by
    refine ⟨by simp, ?_, ?_⟩
    · intro q hq hc
      exact List.mem_filter.2 ⟨hq, decide_eq_true hc⟩
    · intro p hp s _ _ _
      exact ⟨p, (List.mem_filter.1 hp).1, rfl⟩
  have hall : pathsBelow [] (Forest.pathsFrom 0 t) = contentPaths t := by
    simp [pathsBelow, contentPaths, Forest.paths]
  have hseen : ∀ k ∈ ([] : List Nat), k < 0 := by simp
  have hshown := (showsTails hdocs t).content hstands hseen h hcovers
  rw [hall] at hshown
  rw [complete_eq_laid, filter_laid hdocs [] (fun o ho => ho), hshown]
  simp [Path.kept]

end WorldMarkup.Address
