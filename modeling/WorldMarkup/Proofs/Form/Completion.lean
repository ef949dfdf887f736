import WorldMarkup.Form.SplitChain
import WorldMarkup.Proofs.Tree.Sorting

/-!
Completion of split conditionals, path by path. Main statement: each path that is kept stays in
its place, and right behind it stand the branches that are first met on it, in every slot that
their conditional reaches and that lacks them.
-/

set_option autoImplicit false
set_option relaxedAutoImplicit false

namespace WorldMarkup.SplitChain

open Ownership (slot?)

section

variable (kind : EntityKind) (key : String) (paths : List (Path Tag))

/-- The slots that conditionals reach on paths that go on below their branches. -/
def anchored : List (Nat × Slot) :=
  paths.flatMap (fun p =>
    if (floating? kind p).isSome then [] else reaches (slot? kind p) p)

/-- Whether a path stays: a branch without content goes when its conditional reaches a slot. -/
def isKept (p : Path Tag) : Bool :=
  match floating? kind p with
  | none => true
  | some w => !((anchored kind paths).any (fun r => r.1 == w))

/-- The slots that each conditional reaches. -/
def reach : List (Nat × Slot) :=
  (anchored kind paths ++ paths.flatMap (fun p =>
    if (floating? kind p).isSome && isKept kind paths p then reaches none p else [])).eraseDups

/-- The slots in which each branch stands. -/
def present : List (Nat × Slot) :=
  (paths.filter (isKept kind paths)).flatMap
    (fun p => (sites p).map (fun s => (s.branch, slot? kind p)))

def targetStep : Option (Step Tag) :=
  paths.flatten.find? (fun s => s.data.isEntityOf kind key)

def fieldStep (f : FieldKind) : Option (Step Tag) :=
  (paths.find? (fun p => slot? kind p == some f)).bind
    (fun p => p.find? (fun s => s.data.field? == some f))

/-- The slots that lack a branch. -/
def lacking (s : Site) : List (Nat × Slot) :=
  ((reach kind paths).filter (fun r => r.1 == s.wrapper)).filter
    (fun r => !((present kind paths).contains (s.branch, r.2)))

/-- What stands in for a branch in the slots that lack it. -/
def standIns (s : Site) : List (Path Tag) :=
  (lacking kind paths s).map (fun r =>
    placeholder kind key (targetStep kind key paths) (r.2.bind (fieldStep kind paths)) s.path)

/-- Paths in order, each with what stands in for the branches first met on it. -/
def laid (seen : List Nat) : List (Path Tag) → List (Path Tag)
  | [] => []
  | p :: rest =>
    (if isKept kind paths p then [p] else []) ++
      (firsts Site.branch seen (sites p)).flatMap (standIns kind key paths) ++
      laid (((sites p).map Site.branch).reverse ++ seen) rest

/-- The same, each path with its place. -/
private def ranked (place : Nat) (seen : List Nat) : List (Path Tag) → List Ranked
  | [] => []
  | p :: rest =>
    (if isKept kind paths p then [(place, p)] else []) ++
      ((firsts Site.branch seen (sites p)).flatMap (standIns kind key paths)).map (place, ·) ++
      ranked (place + 1) (((sites p).map Site.branch).reverse ++ seen) rest

end

variable {kind : EntityKind} {key : String} {paths : List (Path Tag)}

private theorem ranked_snd (place : Nat) (seen : List Nat) (ps : List (Path Tag)) :
    (ranked kind key paths place seen ps).map Prod.snd = laid kind key paths seen ps := by
  induction ps generalizing place seen with
  | nil => rfl
  | cons p ps ih =>
    have hkept : (if isKept kind paths p = true then [(place, p)] else []).map Prod.snd =
        if isKept kind paths p = true then [p] else [] := by split <;> rfl
    simp only [ranked, laid, List.map_append, hkept, ih, List.map_map]
    simp [Function.comp_def]

private theorem le_of_mem_ranked {place : Nat} {seen : List Nat} {ps : List (Path Tag)}
    {x : Ranked} (h : x ∈ ranked kind key paths place seen ps) : place ≤ x.1 := by
  induction ps generalizing place seen with
  | nil => simp [ranked] at h
  | cons p ps ih =>
    simp only [ranked, List.mem_append] at h
    rcases h with (h | h) | h
    · split at h
      · obtain rfl := List.mem_singleton.1 h
        exact Nat.le_refl _
      · simp at h
    · obtain ⟨q, -, rfl⟩ := List.mem_map.1 h
      exact Nat.le_refl _
    · have := ih h
      omega

private theorem isSorted_ranked (place : Nat) (seen : List Nat) (ps : List (Path Tag)) :
    IsSorted Prod.fst (ranked kind key paths place seen ps) := by
  induction ps generalizing place seen with
  | nil => exact List.Pairwise.nil
  | cons p ps ih =>
    have front : ∀ x ∈ (if isKept kind paths p then [(place, p)] else []) ++
        ((firsts Site.branch seen (sites p)).flatMap (standIns kind key paths)).map (place, ·),
        x.1 = place := by
      intro x hx
      rcases List.mem_append.1 hx with hx | hx
      · split at hx
        · rw [List.mem_singleton.1 hx]
        · simp at hx
      · obtain ⟨q, -, rfl⟩ := List.mem_map.1 hx
        rfl
    rw [ranked]
    refine List.pairwise_append.2 ⟨?_, ih _ _, ?_⟩
    · refine List.Pairwise.imp_of_mem ?_ (List.pairwise_of_forall (fun _ _ => trivial))
      intro a b ha hb _
      exact Nat.le_of_eq ((front a ha).trans (front b hb).symm)
    · intro a ha b hb
      have hle := le_of_mem_ranked hb
      rw [front a ha]
      omega

/-- The branches of paths in order, each with the place where it is first met. -/
private def met (place : Nat) (seen : List Nat) (ps : List (Path Tag)) : List (Nat × Site) :=
  firsts (fun x : Nat × Site => x.2.branch) seen
    ((ps.zipIdx place).flatMap (fun x => (sites x.1).map (x.2, ·)))

private theorem met_cons (place : Nat) (seen : List Nat) (p : Path Tag) (ps : List (Path Tag)) :
    met place seen (p :: ps) =
      (firsts Site.branch seen (sites p)).map (place, ·) ++
        met (place + 1) (((sites p).map Site.branch).reverse ++ seen) ps := by
  have hmap (seen : List Nat) (l : List Site) :
      firsts (fun x : Nat × Site => x.2.branch) seen (l.map (place, ·)) =
        (firsts Site.branch seen l).map (place, ·) := by
    induction l generalizing seen with
    | nil => rfl
    | cons s l ih =>
      simp only [List.map_cons, firsts, ih, List.map_append]
      split <;> rfl
  simp only [met, List.zipIdx_cons, List.flatMap_cons, firsts_append, hmap, List.map_map]
  rfl

private theorem le_of_mem_met {place : Nat} {seen : List Nat} {ps : List (Path Tag)}
    {x : Nat × Site} (h : x ∈ met place seen ps) : place ≤ x.1 := by
  obtain ⟨y, hy, hx⟩ := List.mem_flatMap.1 (mem_of_mem_firsts h).1
  obtain ⟨s, -, rfl⟩ := List.mem_map.1 hx
  exact List.le_snd_of_mem_zipIdx hy

private def staying (kind : EntityKind) (paths : List (Path Tag)) (place : Nat)
    (ps : List (Path Tag)) : List Ranked :=
  ((ps.zipIdx place).map (fun x => (x.2, x.1))).filter (fun r => isKept kind paths r.2)

private def standing (kind : EntityKind) (key : String) (paths : List (Path Tag)) (place : Nat)
    (seen : List Nat) (ps : List (Path Tag)) : List Ranked :=
  (met place seen ps).flatMap (fun x => (standIns kind key paths x.2).map (x.1, ·))

private theorem filter_eq_nil_of_lt {l : List Ranked} {place k : Nat} (hk : k < place)
    (h : ∀ x ∈ l, place ≤ x.1) : l.filter (fun x => x.1 == k) = [] := by
  refine List.filter_eq_nil_iff.2 (fun x hx => ?_)
  have := h x hx
  simp only [beq_iff_eq]
  omega

private theorem filter_ranked (place : Nat) (seen : List Nat) (ps : List (Path Tag)) (k : Nat) :
    (ranked kind key paths place seen ps).filter (fun x => x.1 == k) =
      (staying kind paths place ps ++ standing kind key paths place seen ps).filter
        (fun x => x.1 == k) := by
  induction ps generalizing place seen with
  | nil => rfl
  | cons p ps ih =>
    have hstay : staying kind paths place (p :: ps) =
        (if isKept kind paths p then [(place, p)] else []) ++
          staying kind paths (place + 1) ps := by
      simp only [staying, List.zipIdx_cons, List.map_cons, List.filter_cons]
      split <;> rfl
    have hstand : standing kind key paths place seen (p :: ps) =
        ((firsts Site.branch seen (sites p)).flatMap (standIns kind key paths)).map (place, ·) ++
          standing kind key paths (place + 1)
            (((sites p).map Site.branch).reverse ++ seen) ps := by
      simp only [standing, met_cons, List.flatMap_append, List.flatMap_map, List.map_flatMap]
    have hlater : ∀ x ∈ standing kind key paths (place + 1)
        (((sites p).map Site.branch).reverse ++ seen) ps, place + 1 ≤ x.1 := by
      intro x hx
      obtain ⟨y, hy, hx⟩ := List.mem_flatMap.1 hx
      obtain ⟨q, -, rfl⟩ := List.mem_map.1 hx
      exact le_of_mem_met hy
    have hkept : ∀ x ∈ staying kind paths (place + 1) ps, place + 1 ≤ x.1 := by
      intro x hx
      obtain ⟨y, hy, rfl⟩ := List.mem_map.1 (List.mem_filter.1 hx).1
      exact List.le_snd_of_mem_zipIdx hy
    rw [ranked, hstay, hstand]
    simp only [List.filter_append, ih]
    by_cases hk : k = place
    · subst hk
      rw [filter_eq_nil_of_lt (Nat.lt_succ_self k) hlater,
        filter_eq_nil_of_lt (Nat.lt_succ_self k) hkept]
      simp
    · have hfront : ((if isKept kind paths p then [(place, p)] else []).filter
          (fun x => x.1 == k)) = [] := by
        refine List.filter_eq_nil_iff.2 (fun x hx => ?_)
        split at hx
        · rw [List.mem_singleton.1 hx]
          simpa using fun h => hk h.symm
        · simp at hx
      have hback : ((((firsts Site.branch seen (sites p)).flatMap
          (standIns kind key paths)).map (place, ·)).filter (fun x => x.1 == k)) = [] := by
        refine List.filter_eq_nil_iff.2 (fun x hx => ?_)
        obtain ⟨q, -, rfl⟩ := List.mem_map.1 hx
        simpa using fun h => hk h.symm
      rw [hfront, hback]
      simp

/-- Completion keeps paths in their places and puts behind each what stands in for the branches
first met on it. -/
theorem complete_eq_laid (kind : EntityKind) (key : String) (paths : List (Path Tag)) :
    complete kind key paths = laid kind key paths [] paths := by
  have hsort : (staying kind paths 0 paths ++ standing kind key paths 0 [] paths).mergeSort
      (fun a b => a.1 ≤ b.1) = ranked kind key paths 0 [] paths :=
    mergeSort_eq_of_isSorted (isSorted_ranked 0 [] paths) (filter_ranked 0 [] paths)
  rw [← ranked_snd 0 [] paths, ← hsort]
  have hmet : ((paths.zipIdx.map (fun x => (x.2, x.1))).flatMap
      (fun r : Ranked => (sites r.2).map (fun s => (r.1, s)))).eraseDupsBy
        (fun a b => a.2.branch == b.2.branch) = met 0 [] paths := by
    rw [met, ← eraseDupsBy_eq_firsts, List.flatMap_map]
  simp only [complete, staying, standing]
  rw [← hmet]
  simp only [standIns, lacking, List.map_map]
  rfl

/-! ### Reach and presence -/

theorem nodup_eraseDups {β : Type} [BEq β] [LawfulBEq β] : ∀ l : List β, l.eraseDups.Nodup
  | [] => List.nodup_nil
  | x :: l => by
    rw [List.eraseDups_cons, List.nodup_cons]
    refine ⟨fun h => ?_, nodup_eraseDups _⟩
    have hx := (List.mem_filter.1 (List.mem_eraseDups.1 h)).2
    simp at hx
termination_by l => l.length
decreasing_by
  have := List.length_filter_le (fun y => !y == x) l
  simp only [List.length_cons]
  omega

theorem mem_reach {r : Nat × Slot} :
    r ∈ reach kind paths ↔ r ∈ anchored kind paths ∨
      ∃ p ∈ paths, (floating? kind p).isSome = true ∧ isKept kind paths p = true ∧
        r ∈ reaches none p := by
  simp only [reach, List.mem_eraseDups, List.mem_append, List.mem_flatMap]
  refine or_congr_right ?_
  constructor
  · rintro ⟨p, hp, hr⟩
    split at hr
    · rename_i h
      simp only [Bool.and_eq_true] at h
      exact ⟨p, hp, h.1, h.2, hr⟩
    · simp at hr
  · rintro ⟨p, hp, h1, h2, hr⟩
    exact ⟨p, hp, by simpa [h1, h2] using hr⟩

theorem mem_reaches {slot : Slot} {p : Path Tag} {r : Nat × Slot} :
    r ∈ reaches slot p ↔ r.2 = slot ∧ ∃ s ∈ p, s.data = .conditional ∧ s.origin = r.1 := by
  simp only [reaches, List.mem_map, List.mem_filter, decide_eq_true_eq]
  constructor
  · rintro ⟨s, ⟨hs, hc⟩, rfl⟩
    exact ⟨rfl, s, hs, hc, rfl⟩
  · rintro ⟨h2, s, hs, hc, h1⟩
    exact ⟨s, ⟨hs, hc⟩, Prod.ext h1 h2.symm⟩

theorem floating?_of_slot? {p : Path Tag} {f : FieldKind} (h : slot? kind p = some f) :
    floating? kind p = none := by
  simp [floating?, h]

theorem slot?_of_floating? {p : Path Tag} (h : (floating? kind p).isSome = true) :
    slot? kind p = none := by
  rw [floating?] at h
  split at h
  · rename_i hs
    simpa using hs
  · simp at h

theorem exists_of_mem_reach {r : Nat × Slot} (h : r ∈ reach kind paths) :
    ∃ p ∈ paths, slot? kind p = r.2 ∧ ∃ s ∈ p, s.data = .conditional ∧ s.origin = r.1 := by
  rcases mem_reach.1 h with h | ⟨p, hp, hf, -, hr⟩
  · obtain ⟨p, hp, hr⟩ := List.mem_flatMap.1 h
    split at hr
    · simp at hr
    · obtain ⟨h2, hs⟩ := mem_reaches.1 hr
      exact ⟨p, hp, h2.symm, hs⟩
  · obtain ⟨h2, hs⟩ := mem_reaches.1 hr
    exact ⟨p, hp, by rw [h2, slot?_of_floating? hf], hs⟩

theorem mem_reach_field {w : Nat} {f : FieldKind} :
    (w, some f) ∈ reach kind paths ↔
      ∃ p ∈ paths, slot? kind p = some f ∧ ∃ s ∈ p, s.data = .conditional ∧ s.origin = w := by
  constructor
  · exact fun h => exists_of_mem_reach h
  · rintro ⟨p, hp, hslot, hs⟩
    refine mem_reach.2 (.inl (List.mem_flatMap.2 ⟨p, hp, ?_⟩))
    rw [floating?_of_slot? hslot]
    exact mem_reaches.2 ⟨hslot.symm, hs⟩

theorem isKept_of_slot? {p : Path Tag} {f : FieldKind} (h : slot? kind p = some f) :
    isKept kind paths p = true := by
  simp [isKept, floating?_of_slot? h]

theorem mem_present_field {b : Nat} {f : FieldKind} :
    (b, some f) ∈ present kind paths ↔
      ∃ p ∈ paths, slot? kind p = some f ∧ ∃ s ∈ sites p, s.branch = b := by
  simp only [present, List.mem_flatMap, List.mem_filter, List.mem_map, Prod.mk.injEq]
  constructor
  · rintro ⟨p, ⟨hp, -⟩, s, hs, hb, hslot⟩
    exact ⟨p, hp, hslot, s, hs, hb⟩
  · rintro ⟨p, hp, hslot, s, hs, hb⟩
    exact ⟨p, ⟨hp, isKept_of_slot? hslot⟩, s, hs, hb, hslot⟩

theorem exists_of_mem_sitesFrom {above p : Path Tag} {s : Site} (h : s ∈ sitesFrom above p) :
    ∃ x w b y, p = x ++ w :: b :: y ∧ w.data = .conditional ∧ s.wrapper = w.origin ∧
      s.branch = b.origin ∧ s.path = above ++ x ++ [w, b] := by
  induction p generalizing above with
  | nil => simp [sitesFrom] at h
  | cons w p ih =>
    cases p with
    | nil => simp [sitesFrom] at h
    | cons b rest =>
      rw [sitesFrom, List.mem_append] at h
      rcases h with h | h
      · split at h
        · rename_i hw
          obtain rfl := List.mem_singleton.1 h
          exact ⟨[], w, b, rest, rfl, hw, rfl, rfl, by simp⟩
        · simp at h
      · obtain ⟨x, w', b', y, hp, hw', h1, h2, h3⟩ := ih h
        exact ⟨w :: x, w', b', y, by rw [hp]; rfl, hw', h1, h2, by simpa using h3⟩

end WorldMarkup.SplitChain
