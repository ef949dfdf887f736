import WorldMarkup.Proofs.Form.Routing

/-!
The tails of the content in a field grow into its excerpt: numbered paths are laid in one after
another, every one of them behind what has grown before.
-/

set_option autoImplicit false
set_option relaxedAutoImplicit false

namespace WorldMarkup.Address

open Growth

variable {a : Address}

section Fresh

variable {s : Step Tag} {g : Growth Tag}

theorem match?_eq_none {backward : List (Step Tag)} {r : Rules Tag Category}
    (h : ∀ y ∈ backward, joins r s y = false) : match? r s backward = none := by
  induction backward with
  | nil => rfl
  | cons x rest ih =>
    rw [match?_cons, h x (by simp), ih (fun y hy => h y (by simp [hy]))]
    simp

theorem overtaken_eq_zero (hs : s.data.category ∉ childOrder) (backward : List (Step Tag)) :
    overtaken (regrowth childOrder) s backward = 0 := by
  have hrank : (regrowth childOrder).rank? ((regrowth childOrder).category s.data) = none := by
    refine List.findIdx?_eq_none_iff.2 (fun c hc => ?_)
    have hne : c ≠ s.data.category := fun h => hs (h ▸ hc)
    exact decide_eq_false hne
  simp [overtaken, hrank]

theorem insertAll_fresh (hnum : ∀ n ∈ g, n.data.2 < s.origin)
    (hjoins : match? (regrowth childOrder) s (g.reverse.map step) = none)
    (hs : s.data.category ∉ childOrder) {paths : List (Path Tag)} (hne : paths ≠ []) :
    insertAll (regrowth childOrder) (paths.map (s :: ·)) g =
      g ++ [⟨(s.data, s.origin), s.extra, insertAll (regrowth childOrder) paths []⟩] := by
  have hnew : IsNew (regrowth childOrder) s ((g ++ []).reverse.map step) := by
    rw [List.append_nil]
    refine ⟨?_, hjoins⟩
    intro y hy
    obtain ⟨n, hn, rfl⟩ := List.mem_map.1 hy
    have := hnum n (List.mem_reverse.1 hn)
    simp only [step]
    omega
  have hput := insertAll_of_isNew hnew (overtaken_eq_zero hs _) hne
  rwa [List.append_nil] at hput

theorem joins_eq_false (hs : s.data.category = .inline ∨ s.data = .conditional)
    (y : Step Tag) : joins (regrowth childOrder) s y = false := by
  rw [joins_regrowth]
  rcases hs with hs | hs
  · have hsame : y.data.same s.data = false := by
      cases hd : s.data <;> simp [hd, Tag.category] at hs <;> cases y.data <;> rfl
    simp [hsame]
  · simp [hs, Tag.isWrapper]

theorem match?_branch (hs : s.data.category = .branch) (x : Step Tag) (rest : List (Step Tag)) :
    match? (regrowth childOrder) s (x :: rest) =
      if x.data.same s.data then some 0 else none := by
  have hw : s.data.isWrapper = false := by
    cases hd : s.data <;> simp_all [Tag.category, Tag.isWrapper]
  have hfree : (regrowth childOrder).independent ((regrowth childOrder).category x.data)
      ((regrowth childOrder).category s.data) = false := by
    have hs' : (regrowth childOrder).category s.data = .branch := hs
    rw [hs']
    simp [Rules.independent, regrowth, worldRules, Category.unordered]
  have hpass : passes (regrowth childOrder) s x = false := by simp [passes, hfree]
  rw [match?_cons, hpass, joins_regrowth]
  by_cases hsame : x.data.same s.data = true
  · have hx : x.data.isWrapper = false := by rw [isWrapper_eq_of_same hsame, hw]
    simp [hw, hx, hsame]
  · simp [hsame]

end Fresh

/-! ### Paths behind what has grown -/

/-- Laid in behind what has grown, the paths grow into the forest, with numbers below the bound. -/
def GrowInto (paths : List (Path Tag)) (g : Growth Tag) (t : Forest Tag) (bound : Nat) : Prop :=
  ∃ X, insertAll (regrowth childOrder) paths g = g ++ X ∧ Growth.forest X = t ∧
    ∀ n ∈ X, n.data.2 < bound

def IsBelow (bound : Nat) (g : Growth Tag) : Prop :=
  ∀ n ∈ g, n.data.2 < bound ∧ ∀ m ∈ n.children, m.data.2 < bound

/-- Laid in, the paths join branches to those that have grown, with numbers below the bound. -/
structure JoinInto (paths : List (Path Tag)) (g : Growth Tag) (bs : Forest Tag) (bound : Nat) :
    Prop where
  forest : Growth.forest (insertAll (regrowth childOrder) paths g) =
    bs.foldl Forest.joinBranch (Growth.forest g)
  below : IsBelow bound (insertAll (regrowth childOrder) paths g)

section Laying

variable {paths more : List (Path Tag)} {g : Growth Tag} {t u bs cs : Forest Tag} {j k : Nat}

theorem GrowInto.nil : GrowInto [] g [] k := ⟨[], by simp [insertAll], rfl, by simp⟩

theorem GrowInto.mono (h : GrowInto paths g t j) (le : j ≤ k) : GrowInto paths g t k := by
  obtain ⟨X, laid, grown, bound⟩ := h
  exact ⟨X, laid, grown, fun n hn => Nat.lt_of_lt_of_le (bound n hn) le⟩

theorem GrowInto.append (h : GrowInto paths g t j) (le : j ≤ k)
    (later : ∀ X : Growth Tag, (∀ n ∈ X, n.data.2 < j) → GrowInto more (g ++ X) u k) :
    GrowInto (paths ++ more) g (t ++ u) k := by
  obtain ⟨X, laid, grown, bound⟩ := h
  obtain ⟨Y, laid', grown', bound'⟩ := later X bound
  refine ⟨X ++ Y, by rw [insertAll_append, laid, laid', List.append_assoc],
    by rw [Growth.forest_append, grown, grown'], fun n hn => ?_⟩
  rcases List.mem_append.1 hn with hn | hn
  · exact Nat.lt_of_lt_of_le (bound n hn) le
  · exact bound' n hn

theorem GrowInto.root {s : Step Tag} (older : ∀ n ∈ g, n.data.2 < s.origin)
    (joins : s.data.category = .inline ∨ s.data = .conditional) (filled : paths ≠ [])
    (grown : Growth.forest (insertAll (regrowth childOrder) paths []) = t) (lower : s.origin < k) :
    GrowInto (paths.map (s :: ·)) g [⟨s.data, s.extra, t⟩] k := by
  have unranked : s.data.category ∉ childOrder := by
    rcases joins with inline | conditional
    · simp [inline, childOrder]
    · simp [conditional, childOrder, Tag.category]
  refine ⟨_, insertAll_fresh older (match?_eq_none fun y _ => joins_eq_false joins y) unranked
    filled, ?_, ?_⟩
  · rw [Growth.forest_node, grown]
  · intro n hn
    rwa [List.mem_singleton.1 hn]

theorem isBelow_append {h : Growth Tag} : IsBelow k (g ++ h) ↔ IsBelow k g ∧ IsBelow k h :=
  List.forall_mem_append

theorem IsBelow.mono (h : IsBelow j g) (le : j ≤ k) : IsBelow k g := fun n hn =>
  ⟨Nat.lt_of_lt_of_le (h n hn).1 le, fun m hm => Nat.lt_of_lt_of_le ((h n hn).2 m hm) le⟩

theorem JoinInto.nil (h : IsBelow k g) : JoinInto [] g [] k := ⟨rfl, h⟩

theorem JoinInto.append (h : JoinInto paths g bs j)
    (later : JoinInto more (insertAll (regrowth childOrder) paths g) cs k) :
    JoinInto (paths ++ more) g (bs ++ cs) k where
  forest := by rw [insertAll_append, later.forest, h.forest, List.foldl_append]
  below := by
    rw [insertAll_append]
    exact later.below

theorem JoinInto.last {s : Step Tag} (branch : s.data.category = .branch)
    (older : IsBelow s.origin g) (filled : paths ≠ []) (lower : s.origin < k)
    (inside : GrowInto paths [] t k)
    (apart : match? (regrowth childOrder) s (g.reverse.map step) = none)
    (joined : Forest.joinBranch (Growth.forest g) ⟨s.data, s.extra, t⟩ =
      Growth.forest g ++ [⟨s.data, s.extra, t⟩]) :
    JoinInto (paths.map (s :: ·)) g [⟨s.data, s.extra, t⟩] k := by
  obtain ⟨X, laid, grown, bound⟩ := inside
  have put := insertAll_fresh (fun n hn => (older n hn).1) apart (by simp [branch, childOrder])
    filled
  rw [laid, List.nil_append] at put
  constructor
  · rw [put, Growth.forest_append, Growth.forest_node, grown]
    exact joined.symm
  · rw [put]
    refine isBelow_append.2 ⟨older.mono (Nat.le_of_lt lower), fun n hn => ?_⟩
    obtain rfl := List.mem_singleton.1 hn
    exact ⟨lower, bound⟩

/-- A branch that speaks of what the last one does joins it. -/
theorem JoinInto.same {s : Step Tag} {before : Growth Tag} {n : Node (Tag × Nat)}
    (branch : s.data.category = .branch) (older : IsBelow s.origin (before ++ [n]))
    (filled : paths ≠ []) (lower : s.origin < k) (same : n.data.1.same s.data = true)
    (inside : GrowInto paths n.children t k) :
    JoinInto (paths.map (s :: ·)) (before ++ [n]) [⟨s.data, s.extra, t⟩] k := by
  have plain : s.data.isWrapper = false := by
    cases hd : s.data <;> simp_all [Tag.category, Tag.isWrapper]
  have plain' : n.data.1.isWrapper = false := by rw [isWrapper_eq_of_same same, plain]
  have meets : Meets (regrowth childOrder) s (([] : Growth Tag).reverse.map step) (step n)
      (before.reverse.map step) := by
    refine .alike (fun y hy => ?_) (by simp [joins_regrowth, step, plain, plain', same]) (by simp)
    have hy : y ∈ (before ++ [n]).reverse.map step := by simpa using hy
    obtain ⟨m, hm, rfl⟩ := List.mem_map.1 hy
    exact Nat.ne_of_lt (older m (List.mem_reverse.1 hm)).1
  obtain ⟨X, laid, grown, bound⟩ := inside
  have put := insertAll_of_meets meets filled
  rw [laid] at put
  constructor
  · have last : (Growth.forest (before ++ [n])).getLast? =
        some ⟨n.data.1, n.extra, Growth.forest n.children⟩ := by
      rw [Growth.forest_append, Growth.forest_node]
      simp
    rw [put, List.foldl_cons, List.foldl_nil]
    simp only [Forest.joinBranch, last]
    rw [if_pos same, Growth.forest_append, Growth.forest_append, Growth.forest_node,
      Growth.forest_node, List.dropLast_concat, Growth.forest_append, grown]
    rfl
  · rw [put]
    obtain ⟨olderBefore, own⟩ := isBelow_append.1 (older.mono (Nat.le_of_lt lower))
    obtain ⟨number, children⟩ := own n (List.mem_singleton_self n)
    refine isBelow_append.2 ⟨olderBefore, fun m hm => ?_⟩
    obtain rfl := List.mem_singleton.1 hm
    exact ⟨number, List.forall_mem_append.2 ⟨children, bound⟩⟩

theorem JoinInto.branch {s : Step Tag} (branch : s.data.category = .branch)
    (older : IsBelow s.origin g) (filled : paths ≠ []) (lower : s.origin < k)
    (inside : ∀ h : Growth Tag, (∀ m ∈ h, m.data.2 < s.origin) → GrowInto paths h t k) :
    JoinInto (paths.map (s :: ·)) g [⟨s.data, s.extra, t⟩] k := by
  rcases List.eq_nil_or_concat g with rfl | ⟨before, n, rfl⟩
  · exact .last branch older filled lower (inside [] (by simp)) rfl rfl
  · rw [List.concat_eq_append] at older ⊢
    by_cases same : n.data.1.same s.data = true
    · exact .same branch older filled lower same (inside _ (older n (by simp)).2)
    · refine .last branch older filled lower (inside [] (by simp)) ?_ ?_
      · have backward : (before ++ [n]).reverse.map step =
            step n :: before.reverse.map step := by simp
        rw [backward, match?_branch branch]
        exact if_neg same
      · rw [Growth.forest_append, Growth.forest_node]
        simp [Forest.joinBranch, same]

end Laying

/-! ### The tails of a forest -/

/-- Where a forest leads to the field there are tails. -/
theorem tails_ne_nil {t : Forest Tag} {c : Option Tag} {place : Place} (first : Nat)
    (hl : a.leads place t = true) :
    (Forest.Fits c t → a.tails first place t ≠ []) ∧
      (Forest.AreBranches c t → a.tailsBranches first place t ≠ []) := by
  -- within the field the tails are the paths; above it they come from a node that leads there
  by_cases hw : place = .within
  · subst hw
    have hne : t ≠ [] := by
      rintro rfl
      simp [leads] at hl
    refine ⟨fun h => ?_, fun h => ?_⟩
    · rw [(tails_within first).1 h]
      exact Forest.pathsFrom_ne_nil hne first
    · rw [(tails_within first).2 h]
      exact Forest.pathsFrom_ne_nil hne first
  · induction t using Forest.induction generalizing c place first with
    | nil => simp [leads] at hl
    | cons t e cs rest hcs hrest =>
      rw [leads, Bool.or_eq_true] at hl
      refine ⟨fun h => ?_, fun h => ?_⟩
      · rw [tails]
        rcases hl with hl | hl
        · refine List.append_ne_nil_of_left_ne_nil ?_ _
          rcases hnext : a.next? place t with _ | below
          · simp [leadsNode, hnext] at hl
          rw [tailsNode, hnext]
          by_cases hcond : t = .conditional
          · subst hcond
            have hbelow := h.1.2
            rw [if_pos rfl] at hbelow
            have hlcs : a.leads place cs = true := by
              rw [leadsNode, next?_chain place rfl] at hl
              cases place with
              | within => exact absurd rfl hw
              | _ => exact hl
            have hne := (hcs (first + 1) hlcs hw).2 hbelow.2
            simpa [hl] using hne
          · have hbelow := h.1.2
            rw [if_neg hcond] at hbelow
            by_cases hb : below = .within
            · subst hb
              by_cases hempty : (a.tails (first + 1) .within cs).isEmpty = true
              · simp [hcond, hw, hempty]
              · have hempty : (a.tails (first + 1) .within cs).isEmpty = false := by
                  simpa using hempty
                simp only [hcond, if_false, hw, hempty, Bool.and_false, Bool.false_eq_true]
                simpa using hempty
            · have hlcs : a.leads below cs = true := by
                rw [leadsNode, hnext] at hl
                cases below with
                | within => exact absurd rfl hb
                | _ => exact hl
              have hne := (hcs (first + 1) hlcs hb).1 hbelow
              simpa [hcond, hw, hb] using hne
        · exact List.append_ne_nil_of_right_ne_nil _ ((hrest _ hl hw).1 h.2)
      · rw [tailsBranches]
        rcases hl with hl | hl
        · refine List.append_ne_nil_of_left_ne_nil ?_ _
          have hlcs : a.leads place cs = true := by
            rw [leadsNode, next?_chain place (isChain_of_branch h.1)] at hl
            cases place with
            | within => exact absurd rfl hw
            | _ => exact hl
          rw [if_pos hlcs]
          have hne := (hcs (first + 1) hlcs hw).1 h.2.1
          simpa using hne
        · exact List.append_ne_nil_of_right_ne_nil _ ((hrest _ hl hw).2 h.2.2)

def Suits (place : Place) (c : Option Tag) : Prop :=
  place = .within → ∃ x, c = some x ∧ (x.category = .field ∨ x.category = .inline)

theorem inline_of_suits {c : Option Tag} {t : Tag} (hc : Suits .within c)
    (hst : t.standsIn c = true) (hcond : t ≠ .conditional) : t.category = .inline := by
  obtain ⟨x, rfl, hx⟩ := hc rfl
  simp only [Tag.standsIn, Bool.and_eq_true, bne_iff_ne, ne_eq] at hst
  cases x <;> simp [Tag.category] at hx <;> cases t <;>
    simp_all [Tag.allows, Tag.isInlineContent, Tag.isText, Tag.text?, Tag.category]

theorem insertAll_orNil (b : Bool) (l : List (Path Tag)) (g : Growth Tag) :
    insertAll (regrowth childOrder) (if b && l.isEmpty then [[]] else l) g =
      insertAll (regrowth childOrder) l g := by
  cases l with
  | nil => cases b <;> rfl
  | cons p l => simp

theorem eq_field_of_within {place : Place} (hp : place ≠ .within) {t : Tag}
    (hnext : a.next? place t = some .within) : t = .field a.field := by
  cases hent : t.entity? with
  | some e =>
    rw [next?_entity hp (by simp [hent])] at hnext
    split at hnext <;> simp at hnext
  | none =>
    cases place with
    | within => exact absurd rfl hp
    | outside => cases t <;> simp_all [next?, Tag.entity?]
    | owned => cases t <;> simp_all [next?, Tag.entity?]

theorem leads_of_leadsNode {place : Place} {e : Extra} {cs : Forest Tag} (hne : cs ≠ [])
    (h : a.leadsNode place ⟨.conditional, e, cs⟩ = true) : a.leads place cs = true := by
  rw [leadsNode, next?_chain place rfl] at h
  cases place with
  | within =>
    cases cs with
    | nil => exact absurd rfl hne
    | cons n cs => cases n; simp [leads, leadsNode, next?_within]
  | _ => exact h

/-- Laid in behind smaller numbers, the tails of the forest grow into its excerpt. -/
structure GrowTails (a : Address) (t : Forest Tag) : Prop where
  content {c : Option Tag} {place : Place} (hplace : Suits place c) (fits : Forest.Fits c t)
    (first : Nat) (g : Growth Tag) (older : ∀ n ∈ g, n.data.2 < first) :
    GrowInto (a.tails first place t) g (a.excerpt place t) (first + Forest.size t)
  branches {c : Option Tag} {place : Place} (hplace : Suits place c)
    (fits : Forest.AreBranches c t) (first : Nat) (g : Growth Tag) (older : IsBelow first g) :
    JoinInto (a.tailsBranches first place t) g (a.excerptBranches place t)
      (first + Forest.size t)

section Node

variable {t : Tag} {e : Extra} {cs : Forest Tag} {c : Option Tag} {place : Place} {first : Nat}
  {g : Growth Tag}

theorem GrowTails.conditional (hcs : a.GrowTails cs) (hplace : Suits place c) (filled : cs ≠ [])
    (fits : Forest.AreBranches c cs) (older : ∀ n ∈ g, n.data.2 < first) :
    GrowInto (a.tailsNode first place ⟨.conditional, e, cs⟩) g
      (a.excerptNode place ⟨.conditional, e, cs⟩) (first + Node.size ⟨.conditional, e, cs⟩) := by
  rw [tailsNode, excerptNode, next?_chain place rfl]
  simp only [if_true]
  by_cases leads : a.leadsNode place ⟨.conditional, e, cs⟩ = true
  · rw [if_pos leads, if_pos leads]
    have some := (tails_ne_nil (first + 1) (leads_of_leadsNode filled leads)).2 fits
    have grown := (hcs.branches hplace fits (first + 1) [] (by simp [IsBelow])).forest
    exact .root (s := ⟨.conditional, e, first⟩) older (.inr rfl) some grown
      (by simp only [Node.size]; omega)
  · rw [if_neg leads, if_neg leads]
    exact .nil

theorem GrowTails.within (hcs : a.GrowTails cs) (hplace : Suits .within c)
    (stands : t.standsIn c = true) (plain : t ≠ .conditional) (fits : Forest.Fits (some t) cs)
    (older : ∀ n ∈ g, n.data.2 < first) :
    GrowInto (a.tailsNode first .within ⟨t, e, cs⟩) g (a.excerptNode .within ⟨t, e, cs⟩)
      (first + Node.size ⟨t, e, cs⟩) := by
  rw [tailsNode, excerptNode, next?_within]
  simp only [plain, if_false, if_true]
  have inline := inline_of_suits hplace stands plain
  obtain ⟨X, laid, grown, -⟩ :=
    hcs.content (fun _ => ⟨t, rfl, .inr inline⟩) fits (first + 1) [] (by simp)
  have some : (if decide (Place.within = .within) &&
      (a.tails (first + 1) .within cs).isEmpty then [[]]
      else a.tails (first + 1) .within cs) ≠ [] := by
    split
    · simp
    · rename_i filled
      simpa using filled
  refine .root (s := ⟨t, e, first⟩) older (.inl inline) some ?_ (by simp only [Node.size]; omega)
  rw [insertAll_orNil, laid, List.nil_append, grown]

theorem GrowTails.toward {below : Place} (hcs : a.GrowTails cs) (outside : place ≠ .within)
    (next : a.next? place t = some below) (plain : t ≠ .conditional)
    (fits : Forest.Fits (some t) cs) (older : ∀ n ∈ g, n.data.2 < first) :
    GrowInto (a.tailsNode first place ⟨t, e, cs⟩) g (a.excerptNode place ⟨t, e, cs⟩)
      (first + Node.size ⟨t, e, cs⟩) := by
  rw [tailsNode, excerptNode, next]
  simp only [plain, outside, if_false]
  have suits : Suits below (some t) := by
    rintro rfl
    exact ⟨t, rfl, .inl (by rw [eq_field_of_within outside next]; rfl)⟩
  obtain ⟨X, laid, grown, bound⟩ := (hcs.content suits fits (first + 1) g
    fun n hn => Nat.lt_succ_of_lt (older n hn)).mono
      (by simp only [Node.size]; omega : _ ≤ first + Node.size ⟨t, e, cs⟩)
  exact ⟨X, by rw [insertAll_orNil, laid], grown, bound⟩

theorem GrowTails.node (hcs : a.GrowTails cs) (hplace : Suits place c)
    (fits : Node.Fits c ⟨t, e, cs⟩) (older : ∀ n ∈ g, n.data.2 < first) :
    GrowInto (a.tailsNode first place ⟨t, e, cs⟩) g (a.excerptNode place ⟨t, e, cs⟩)
      (first + Node.size ⟨t, e, cs⟩) := by
  obtain ⟨stands, below⟩ := fits
  split at below
  · rename_i conditional
    subst conditional
    exact hcs.conditional hplace below.1 below.2 older
  · rename_i plain
    by_cases inside : place = .within
    · subst inside
      exact hcs.within hplace stands plain below older
    · cases next : a.next? place t with
      | none =>
        rw [tailsNode, excerptNode, next]
        exact .nil
      | some lower => exact hcs.toward inside next plain below older

/-- A branch that leads to the field stands there with its content; one through which the component
has other content stands there without. -/
theorem GrowTails.branch (hcs : a.GrowTails cs) (hplace : Suits place c)
    (branch : t.category = .branch) (fits : Forest.Fits c cs) (older : IsBelow first g) :
    JoinInto
      (if a.leads place cs then (a.tails (first + 1) place cs).map (⟨t, e, first⟩ :: ·)
        else if a.touchesNode (place != .outside) ⟨t, e, cs⟩ then [[⟨t, e, first⟩]] else []) g
      (if a.leads place cs then [⟨t, e, a.excerpt place cs⟩]
        else if a.touchesNode (place != .outside) ⟨t, e, cs⟩ then [⟨t, e, []⟩] else [])
      (first + Node.size ⟨t, e, cs⟩) := by
  have lower : first < first + Node.size ⟨t, e, cs⟩ := by
    rw [Node.size]
    omega
  by_cases leads : a.leads place cs = true
  · rw [if_pos leads, if_pos leads]
    refine .branch (s := ⟨t, e, first⟩) branch older ((tails_ne_nil (first + 1) leads).1 fits)
      lower fun h hh => ?_
    exact (hcs.content hplace fits (first + 1) h fun n hn => Nat.lt_succ_of_lt (hh n hn)).mono
      (by simp only [Node.size]; omega)
  · rw [if_neg leads, if_neg leads]
    split
    · have bare : ([[]] : List (Path Tag)) ≠ [] := by simp
      exact .branch (s := ⟨t, e, first⟩) branch older bare lower
        fun h _ => ⟨[], by simp [insertAll, Growth.insert], rfl, by simp⟩
    · exact .nil (older.mono (Nat.le_of_lt lower))

end Node

theorem growTails (a : Address) (t : Forest Tag) : a.GrowTails t := by
  induction t using Forest.induction with
  | nil =>
    refine ⟨fun _ _ _ _ _ => .nil, fun _ _ first g older => ?_⟩
    exact .nil older
  | cons t e cs rest hcs hrest =>
    refine ⟨fun hplace fits first g older => ?_, fun hplace fits first g older => ?_⟩
    · have later (X : Growth Tag) (bound : ∀ n ∈ X, n.data.2 < first + Node.size ⟨t, e, cs⟩) :=
        hrest.content hplace fits.2 (first + Node.size ⟨t, e, cs⟩) (g ++ X)
          (List.forall_mem_append.2 ⟨fun n hn => Nat.lt_add_right _ (older n hn), bound⟩)
      rw [Nat.add_assoc] at later
      exact (hcs.node hplace fits.1 older).append (Nat.add_le_add_left (Nat.le_add_right _ _) _)
        later
    · obtain ⟨branch, inside, beside⟩ := fits
      have own := hcs.branch (e := e) hplace branch inside older
      have later := hrest.branches hplace beside _ _ own.below
      rw [Nat.add_assoc] at later
      exact own.append later

theorem forest_tails (a : Address) {t : Forest Tag} (h : Forest.Fits none t) :
    Growth.forest (insertAll (regrowth childOrder) (a.tails 0 .outside t) []) =
      a.excerpt .outside t := by
  have hsuits : Suits .outside none := fun hw => absurd hw (by simp)
  obtain ⟨X, laid, grown, -⟩ := (growTails a t).content hsuits h 0 [] (by simp)
  rw [laid, List.nil_append, grown]

/-- The tree of a component holds in each field the excerpt of the content. -/
theorem grown_excerpt (a : Address) {t : Forest Tag} (h : Forest.Fits none t) {grown : Forest Tag}
    (hgrown : Standardize.growComponent a.kind a.key (a.view (contentPaths t)) = .ok grown) :
    grown = [] ∨ ∃ root, grown = [root] ∧ root.data.isEntityOf a.kind a.key = true ∧
      (List.filter (fun n : Node Tag => decide (n.data.field? = some a.field))
        root.children).flatMap Node.children = a.excerpt .outside t := by
  have hfield := grown_field (areContent_contentPaths h) hgrown
  rw [complete_tails a h, forest_tails a h] at hfield
  exact hfield

end WorldMarkup.Address
