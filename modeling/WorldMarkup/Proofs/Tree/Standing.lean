import WorldMarkup.Proofs.Tree.Restoring

/-!
What may stand where. Each node opens a scope for what stands below it, and the scope tells what
may stand there. That every node stands as it may carries over to the paths of a forest, and from
paths to what grows from them, as long as tags that speak of one thing open the same scope. Main
statement: paths that agree on what their numbers stand for grow into a forest in which every node
stands as its step did.
-/

set_option autoImplicit false
set_option relaxedAutoImplicit false

namespace WorldMarkup

namespace Tag

/-- Two tags speak of one thing. -/
def Kin (a b : Tag) : Prop := a = b ∨ a.same b = true

variable {a b c : Tag}

theorem Kin.refl (a : Tag) : a.Kin a := .inl rfl

theorem Kin.symm (h : a.Kin b) : b.Kin a := by
  rcases h with rfl | h
  · exact .refl a
  · exact .inr (by rw [same_comm]; exact h)

theorem Kin.trans (hab : a.Kin b) (hbc : b.Kin c) : a.Kin c := by
  rcases hab with rfl | hab
  · exact hbc
  · rcases hbc with rfl | hbc
    · exact .inr hab
    · exact .inr (same_trans hab hbc)

theorem Kin.category_eq (h : a.Kin b) : a.category = b.category := by
  rcases h with rfl | h
  · rfl
  · exact Growth.category_eq_of_same h

theorem Kin.isWrapper_eq (h : a.Kin b) : a.isWrapper = b.isWrapper := by
  rcases h with rfl | h
  · rfl
  · exact Growth.isWrapper_eq_of_same h

theorem Kin.isText_eq (h : a.Kin b) : a.isText = b.isText := by
  rcases h with rfl | h
  · rfl
  · cases a <;> cases b <;> simp [same] at h <;> rfl

theorem kin_withoutSource (t : Tag) : t.Kin t.withoutSource := by
  cases t with
  | entity e => exact .inr (by simp [same, withoutSource])
  | _ => exact .refl _

end Tag

/-! ### Scopes -/

/-- What may stand in a scope, and the scope that a tag opens for what stands below it. -/
structure Standing (σ : Type) where
  allows : σ → Tag → Prop
  below : σ → Tag → σ

/-- Only the tag right above counts; nothing is above a root. -/
abbrev Standing.under (allows : Option Tag → Tag → Prop) : Standing (Option Tag) where
  allows := allows
  below _ t := some t

variable {σ : Type}

mutual

def Node.Stands (R : Standing σ) (scope : σ) : Node Tag → Prop
  | ⟨t, _, cs⟩ => R.allows scope t ∧ Forest.Stands R (R.below scope t) cs

/-- Every node of a forest stands as it may. -/
def Forest.Stands (R : Standing σ) (scope : σ) : Forest Tag → Prop
  | [] => True
  | n :: rest => n.Stands R scope ∧ Forest.Stands R scope rest

end

def Path.Stands (R : Standing σ) (scope : σ) : Path Tag → Prop
  | [] => True
  | s :: rest => R.allows scope s.data ∧ Path.Stands R (R.below scope s.data) rest

def Path.scopeBelow (R : Standing σ) (scope : σ) : Path Tag → σ
  | [] => scope
  | s :: rest => Path.scopeBelow R (R.below scope s.data) rest

section

variable {R : Standing σ} {scope : σ}

theorem Forest.stands_iff {t : Forest Tag} :
    Forest.Stands R scope t ↔ ∀ n ∈ t, n.Stands R scope := by
  induction t with
  | nil => simp [Forest.Stands]
  | cons n rest ih => simp [Forest.Stands, ih]

theorem Forest.stands_append {t u : Forest Tag} :
    Forest.Stands R scope (t ++ u) ↔ Forest.Stands R scope t ∧ Forest.Stands R scope u := by
  simp only [Forest.stands_iff, List.forall_mem_append]

theorem Path.stands_append {p q : Path Tag} :
    Path.Stands R scope (p ++ q) ↔
      Path.Stands R scope p ∧ Path.Stands R (Path.scopeBelow R scope p) q := by
  induction p generalizing scope with
  | nil => simp [Path.Stands, Path.scopeBelow]
  | cons s rest ih => simp [Path.Stands, Path.scopeBelow, ih, and_assoc]

theorem Path.scopeBelow_append (p q : Path Tag) :
    Path.scopeBelow R scope (p ++ q) = Path.scopeBelow R (Path.scopeBelow R scope p) q := by
  induction p generalizing scope with
  | nil => rfl
  | cons s rest ih => exact ih

theorem Path.Stands.mono {allows allows' : Option Tag → Tag → Prop} {above : Option Tag}
    {p : Path Tag} (h : Path.Stands (.under allows) above p)
    (imp : ∀ a s, allows a s → allows' a s) : Path.Stands (.under allows') above p := by
  induction p generalizing above with
  | nil => trivial
  | cons s rest ih => exact ⟨imp _ _ h.1, ih h.2⟩

theorem Forest.Stands.of_subset {t u : Forest Tag} (h : Forest.Stands R scope t)
    (sub : ∀ n ∈ u, n ∈ t) : Forest.Stands R scope u :=
  Forest.stands_iff.2 (fun n hn => Forest.stands_iff.1 h n (sub n hn))

theorem Forest.Stands.pathsFrom {t : Forest Tag} (h : Forest.Stands R scope t) {first : Nat}
    {p : Path Tag} (hp : p ∈ Forest.pathsFrom first t) : Path.Stands R scope p := by
  induction t using Forest.induction generalizing scope first p with
  | nil => simp [Forest.pathsFrom] at hp
  | cons d e cs rest hcs hrest =>
    obtain ⟨⟨own, below⟩, beside⟩ := h
    rw [Forest.pathsFrom, Forest.paths_eq_rests, List.mem_append] at hp
    rcases hp with hp | hp
    · obtain ⟨q, hq, rfl⟩ := List.mem_map.1 hp
      refine ⟨own, ?_⟩
      rw [Forest.rests] at hq
      split at hq
      · rw [List.mem_singleton.1 hq]
        trivial
      · exact hcs below hq
    · exact hrest beside hp

end

/-! ### Numbers that stand for one thing -/

/-- Steps of one number speak of one thing. -/
def Path.Agree (paths : List (Path Tag)) : Prop :=
  ∀ s ∈ paths.flatten, ∀ x ∈ paths.flatten, s.origin = x.origin → s.data.Kin x.data

/-- What a number stands for: the tag of the first step that has it. -/
def Path.label (paths : List (Path Tag)) (number : Nat) : Tag :=
  ((paths.flatten.find? (fun s => s.origin == number)).map Step.data).getD .space

theorem Path.Agree.kin_label {paths : List (Path Tag)} (h : Path.Agree paths) {s : Step Tag}
    (hs : s ∈ paths.flatten) : s.data.Kin (Path.label paths s.origin) := by
  unfold Path.label
  rcases hfind : paths.flatten.find? (fun x => x.origin == s.origin) with _ | x
  · have := List.find?_eq_none.1 hfind s hs
    simp at this
  · have own : x.origin = s.origin := by simpa using List.find?_some hfind
    rw [hfind]
    exact h s hs x (List.mem_of_find?_eq_some hfind) own.symm

theorem Path.Agree.of_steps {paths more : List (Path Tag)} (h : Path.Agree paths)
    (source : ∀ s ∈ more.flatten, ∃ x ∈ paths.flatten, x.origin = s.origin ∧ s.data.Kin x.data) :
    Path.Agree more := by
  intro s hs x hx own
  obtain ⟨s', hs', hso, hsk⟩ := source s hs
  obtain ⟨x', hx', hxo, hxk⟩ := source x hx
  have kin := h s' hs' x' hx' (by rw [hso, hxo, own])
  exact (hsk.trans kin).trans hxk.symm

theorem Forest.agree_pathsFrom (first : Nat) (t : Forest Tag) :
    Path.Agree (Forest.pathsFrom first t) := by
  intro s hs x hx own
  obtain ⟨p, hp, hsp⟩ := List.mem_flatten.1 hs
  obtain ⟨q, hq, hxq⟩ := List.mem_flatten.1 hx
  obtain ⟨before, after, rfl⟩ := List.append_of_mem hsp
  obtain ⟨before', after', rfl⟩ := List.append_of_mem hxq
  obtain ⟨-, rfl⟩ := Forest.prefix_eq_of_origin_eq hp hq own
  exact .refl _

/-! ### Growing -/

/-- Tags that speak of one thing open scopes that cannot be told apart. -/
structure Standing.Respects (R : Standing σ) : Prop where
  allows : ∀ {scope : σ} {a b t : Tag}, a.Kin b →
    R.allows (R.below scope a) t → R.allows (R.below scope b) t
  below : ∀ {scope : σ} {a b t : Tag}, a.Kin b →
    R.below (R.below scope a) t = R.below (R.below scope b) t

theorem Standing.respects_of_eq {R : Standing σ}
    (h : ∀ {scope : σ} {a b : Tag}, a.Kin b → R.below scope a = R.below scope b) :
    R.Respects where
  allows kin allowed := by rwa [← h kin]
  below kin := by rw [h kin]

mutual

/-- Every node of a tree that grows stands as it may and speaks of what its number stands for. -/
def Node.Grows (label : Nat → Tag) (R : Standing σ) (scope : σ) : Node (Tag × Nat) → Prop
  | ⟨(t, number), _, cs⟩ =>
    t.Kin (label number) ∧ R.allows scope t ∧ Forest.Grows label R (R.below scope t) cs

/-- Every node of a forest that grows stands as it may and speaks of what its number stands
for. -/
def Forest.Grows (label : Nat → Tag) (R : Standing σ) (scope : σ) : Growth Tag → Prop
  | [] => True
  | n :: rest => n.Grows label R scope ∧ Forest.Grows label R scope rest

end

namespace Growth

variable {label : Nat → Tag} {R : Standing σ} {scope : σ} {order : List Category}

theorem grows_iff {g : Growth Tag} :
    Forest.Grows label R scope g ↔ ∀ n ∈ g, n.Grows label R scope := by
  induction g with
  | nil => simp [Forest.Grows]
  | cons n rest ih => simp [Forest.Grows, ih]

theorem grows_append {g h : Growth Tag} :
    Forest.Grows label R scope (g ++ h) ↔
      Forest.Grows label R scope g ∧ Forest.Grows label R scope h := by
  simp only [grows_iff, List.forall_mem_append]

theorem labelled_of_grows {g : Growth Tag} (h : Forest.Grows label R scope g) :
    ∀ n ∈ g, n.data.1.Kin (label n.data.2) := by
  intro n hn
  rcases n with ⟨⟨t, number⟩, e, cs⟩
  exact (grows_iff.1 h _ hn).1

theorem grows_of_kin (hR : R.Respects) {a b : Tag} (kin : a.Kin b) {g : Growth Tag}
    (h : Forest.Grows label R (R.below scope a) g) :
    Forest.Grows label R (R.below scope b) g := by
  rw [grows_iff] at h ⊢
  intro n hn
  rcases n with ⟨⟨t, number⟩, e, cs⟩
  obtain ⟨own, stands, below⟩ := h _ hn
  rw [hR.below kin] at below
  exact ⟨own, hR.allows kin stands, below⟩

theorem stands_of_kin (hR : R.Respects) {a b : Tag} (kin : a.Kin b) {p : Path Tag}
    (h : Path.Stands R (R.below scope a) p) : Path.Stands R (R.below scope b) p := by
  cases p with
  | nil => trivial
  | cons s rest =>
    obtain ⟨own, below⟩ := h
    rw [hR.below kin] at below
    exact ⟨hR.allows kin own, below⟩

theorem kin_of_meets {n : Node (Tag × Nat)} {s : Step Tag} {later earlier : List (Step Tag)}
    (hn : n.data.1.Kin (label n.data.2)) (hs : s.data.Kin (label s.origin))
    (h : Meets (regrowth order) s later (step n) earlier) : n.data.1.Kin s.data := by
  cases h with
  | twin own _ =>
    have own : n.data.2 = s.origin := own
    rw [own] at hn
    exact hn.trans hs.symm
  | alike _ joined _ =>
    rw [joins_regrowth, Bool.and_eq_true] at joined
    exact .inr joined.2

/-- Laying in one path keeps the nodes standing as they may. -/
theorem grows_insert (hR : R.Respects) {p : Path Tag} {g : Growth Tag}
    (labelled : ∀ s ∈ p, s.data.Kin (label s.origin)) (stands : Path.Stands R scope p)
    (h : Forest.Grows label R scope g) :
    Forest.Grows label R scope (insert (regrowth order) p g) := by
  induction p generalizing scope g with
  | nil => exact h
  | cons s rest ih =>
    obtain ⟨own, below⟩ := stands
    have hs : s.data.Kin (label s.origin) := labelled s (by simp)
    have hrest : ∀ x ∈ rest, x.data.Kin (label x.origin) := fun x hx => labelled x (by simp [hx])
    rcases meets_or_isNew (regrowth order) s g with ⟨before, n, after, rfl, hmeets⟩ | hnew
    · rw [insert_of_meets _ hmeets]
      obtain ⟨hbefore, hn, hafter⟩ := grows_append.1 h
      rcases n with ⟨⟨t, number⟩, e, cs⟩
      obtain ⟨hlabel, hstands, hcs⟩ := hn
      have kin : t.Kin s.data := kin_of_meets hlabel hs hmeets
      obtain ⟨kept, allowed⟩ : t.Kin (Step.settle (step ⟨(t, number), e, cs⟩) s).1 ∧
          R.allows scope (Step.settle (step ⟨(t, number), e, cs⟩) s).1 := by
        exact settle_of_both (P := fun x => t.Kin x ∧ R.allows scope x) ⟨.refl t, hstands⟩
          ⟨kin, own⟩
      have inside := ih hrest (stands_of_kin hR (kin.symm.trans kept) below)
        (grows_of_kin hR kept hcs)
      exact grows_append.2 ⟨hbefore, ⟨kept.symm.trans hlabel, allowed, inside⟩, hafter⟩
    · obtain ⟨before, after, rfl, hput, -⟩ := exists_of_isNew hnew
      rw [hput]
      obtain ⟨hbefore, hafter⟩ := grows_append.1 h
      have inside : Forest.Grows label R (R.below scope s.data)
          (insert (regrowth order) rest []) := ih hrest below trivial
      exact grows_append.2 ⟨hbefore, ⟨hs, own, inside⟩, hafter⟩

theorem grows_insertAll (hR : R.Respects) {paths : List (Path Tag)} {g : Growth Tag}
    (labelled : ∀ s ∈ paths.flatten, s.data.Kin (label s.origin))
    (stands : ∀ p ∈ paths, Path.Stands R scope p) (h : Forest.Grows label R scope g) :
    Forest.Grows label R scope (insertAll (regrowth order) paths g) := by
  induction paths generalizing g with
  | nil => exact h
  | cons p paths ih =>
    rw [insertAll_cons]
    apply ih
    · intro s hs
      exact labelled s (by rw [List.flatten_cons]; exact List.mem_append_right _ hs)
    · exact fun q hq => stands q (by simp [hq])
    · apply grows_insert hR _ (stands p (by simp)) h
      intro s hs
      exact labelled s (by rw [List.flatten_cons]; exact List.mem_append_left _ hs)

theorem stands_of_grows {g : Growth Tag} (h : Forest.Grows label R scope g) :
    Forest.Stands R scope g.forest := by
  unfold Growth.forest
  induction g using Forest.induction generalizing scope with
  | nil => trivial
  | cons d e cs rest hcs hrest => exact ⟨⟨h.1.2.1, hcs h.1.2.2⟩, hrest h.2⟩

end Growth

/-- From paths that agree grows a forest whose nodes stand as their steps did. -/
theorem Growth.stands_insertAll {R : Standing σ} (hR : R.Respects) {scope : σ}
    {order : List Category} {paths : List (Path Tag)} (agree : Path.Agree paths)
    (stands : ∀ p ∈ paths, Path.Stands R scope p) :
    Forest.Stands R scope (Growth.forest (insertAll (regrowth order) paths [])) :=
  stands_of_grows (grows_insertAll hR (fun _ hs => agree.kin_label hs) stands trivial)

end WorldMarkup
