import Mathlib.Algebra.Order.Group.Multiset
import Mathlib.Tactic.Abel
import WorldMarkup.Proofs.Tree.Restoring

/-!
Which nodes of a forest come together in which node of the one that grows back. The rules of an
outline are carried over to data with notes: a node notes each step that is laid there. Main
statements: with its notes dropped the noted forest is the one that grows back; every node of the
source is noted once; and what a world document keeps of the nodes noted together is the last local
data, or the last if there is none, the first name, and the mark of inherited content if all have
it.
-/

set_option autoImplicit false
set_option relaxedAutoImplicit false

namespace WorldMarkup

variable {α β κ : Type}

/-! ### Notes -/

namespace Step

def map (f : α → β) (s : Step α) : Step β := ⟨f s.data, s.extra, s.origin⟩

def noted (s : Step α) : Step (α × List (Step α)) := ⟨(s.data, [s]), s.extra, s.origin⟩

def joinNotes (notes more : List (Step α)) : List (Step α) :=
  notes ++ more.filter (fun c => notes.all (fun b => b.origin != c.origin))

theorem joinNotes_self (notes : List (Step α)) : joinNotes notes notes = notes := by
  rw [joinNotes, List.filter_eq_nil_iff.2, List.append_nil]
  intro c hc fresh
  simpa using List.all_eq_true.1 fresh c hc

theorem joinNotes_again (notes more : List (Step α)) :
    joinNotes (joinNotes notes more) more = joinNotes notes more := by
  rw [joinNotes, List.filter_eq_nil_iff.2, List.append_nil]
  intro c hc fresh
  rw [joinNotes, List.all_append, Bool.and_eq_true] at fresh
  have itself := List.all_eq_true.1 fresh.2 c (List.mem_filter.2 ⟨hc, fresh.1⟩)
  simp at itself

theorem joinNotes_fresh {notes : List (Step α)} {c : Step α}
    (fresh : ∀ b ∈ notes, b.origin < c.origin) : joinNotes notes [c] = notes ++ [c] := by
  have all : notes.all (fun b => b.origin != c.origin) = true :=
    List.all_eq_true.2 fun b hb => by simpa using Nat.ne_of_lt (fresh b hb)
  simp [joinNotes, all]

end Step

/-- The same rules for data with notes. -/
def Rules.noting (r : Rules α κ) : Rules (α × List (Step α)) κ where
  category x := r.category x.1
  same x y := r.same x.1 y.1
  combine existing incoming :=
    let kept := r.combine (existing.map Prod.fst) (incoming.map Prod.fst)
    ((kept.1, Step.joinNotes existing.data.2 incoming.data.2), kept.2)
  isWrapper x := r.isWrapper x.1
  unordered := r.unordered
  ranking := r.ranking

namespace Growth

variable {r : Rules α κ}

theorem absorbs_noting (absorbs : Absorbs r) : Absorbs r.noting where
  self s := by
    have same := absorbs.self (s.map Prod.fst)
    simp only [Rules.noting, same, Step.joinNotes_self]
    rfl
  again x s number := by
    have same := absorbs.again (x.map Prod.fst) (s.map Prod.fst) number
    simp only [Rules.noting, Step.joinNotes_again]
    exact congrArg (fun kept => ((kept.1, _), kept.2)) same
  rejoins {s x} h number :=
    absorbs.rejoins (s := s.map Prod.fst) (x := x.map Prod.fst) h number

/-! ### Without notes -/

variable [DecidableEq κ]

def unnotedNode : Node ((α × List (Step α)) × Nat) → Node (α × Nat) :=
  Node.map (fun x => (x.1.1, x.2))

def unnoted (g : Growth (α × List (Step α))) : Growth α :=
  List.map unnotedNode g

theorem unnoted_eq (g : Growth (α × List (Step α))) :
    unnoted g = Forest.map (fun x => (x.1.1, x.2)) g := (Forest.map_eq _ g).symm

theorem step_unnotedNode (n : Node ((α × List (Step α)) × Nat)) :
    step (unnotedNode n) = (step n).map Prod.fst := by
  cases n
  rfl

theorem unnotedNode_mk (d : α × List (Step α)) (number : Nat) (e : Extra)
    (cs : Growth (α × List (Step α))) :
    unnotedNode ⟨(d, number), e, cs⟩ = ⟨(d.1, number), e, unnoted cs⟩ := by
  rw [unnoted_eq]
  rfl

theorem map_modify {f : α → α} {g : β → β} {h : α → β} (commutes : ∀ x, h (f x) = g (h x))
    (i : Nat) (l : List α) : (l.modify i f).map h = (l.map h).modify i g := by
  induction l generalizing i with
  | nil => simp
  | cons x l ih =>
    cases i with
    | zero => simp [commutes]
    | succ i => simp [ih]

theorem match?_noting (s : Step (α × List (Step α))) (backward : List (Step (α × List (Step α)))) :
    match? r.noting s backward =
      match? r (s.map Prod.fst) (backward.map (Step.map Prod.fst)) := by
  induction backward with
  | nil => rfl
  | cons x rest ih =>
    rw [List.map_cons, match?, match?, ih]
    rfl

theorem partner?_noting (s : Step (α × List (Step α)))
    (backward : List (Step (α × List (Step α)))) :
    partner? r.noting s backward =
      partner? r (s.map Prod.fst) (backward.map (Step.map Prod.fst)) := by
  rw [partner?, partner?, match?_noting, twin?, twin?, List.findIdx?_map]
  rfl

theorem overtaken_noting (s : Step (α × List (Step α)))
    (backward : List (Step (α × List (Step α)))) :
    overtaken r.noting s backward =
      overtaken r (s.map Prod.fst) (backward.map (Step.map Prod.fst)) := by
  rw [overtaken_eq, overtaken_eq, List.takeWhile_map, List.length_map]
  rfl

theorem unnoted_insert (p : Path (α × List (Step α))) (g : Growth (α × List (Step α))) :
    unnoted (insert r.noting p g) = insert r (p.map (Step.map Prod.fst)) (unnoted g) := by
  induction p generalizing g with
  | nil => rfl
  | cons s rest ih =>
    have backward : (unnoted g).reverse.map step =
        (g.reverse.map step).map (Step.map Prod.fst) := by
      rw [unnoted, ← List.map_reverse, List.map_map, List.map_map]
      exact List.map_congr_left fun n _ => step_unnotedNode n
    have length : (unnoted g).length = g.length := List.length_map _
    rw [List.map_cons, insert, insert, backward, ← partner?_noting, ← overtaken_noting, length]
    cases partner? r.noting s (g.reverse.map step) with
    | some i =>
      refine map_modify (fun n => ?_) _ g
      obtain ⟨⟨d, number⟩, e, cs⟩ := n
      simp only [unnotedNode_mk, ih]
      rfl
    | none =>
      refine (List.map_insertIdx ..).trans ?_
      rw [unnotedNode_mk, ih]
      rfl

theorem unnoted_insertAll (paths : List (Path α)) (g : Growth (α × List (Step α))) :
    unnoted (insertAll r.noting (paths.map (List.map Step.noted)) g) =
      insertAll r paths (unnoted g) := by
  induction paths generalizing g with
  | nil => rfl
  | cons p paths ih =>
    have same : (p.map Step.noted).map (Step.map Prod.fst) = p := by
      rw [List.map_map]
      exact List.map_id' p
    rw [List.map_cons, insertAll_cons, insertAll_cons, ih, unnoted_insert, same]

end Growth

/-- The forest that grows back, with the nodes of the source that come together in each node. -/
def Outline.ledger [DecidableEq κ] (o : Outline α κ) : Forest (α × List (Step α)) :=
  Forest.ofPaths o.rules.noting (o.paths.map (List.map Step.noted))

/-- Noting changes nothing else. -/
theorem Outline.map_ledger [DecidableEq κ] (o : Outline α κ) :
    Forest.map Prod.fst o.ledger = o.forest := by
  have same := Growth.unnoted_insertAll (r := o.rules) o.paths []
  rw [Outline.forest, Forest.ofPaths, Growth.ofPaths_eq_insertAll]
  show Forest.map Prod.fst (Forest.map Prod.fst (Growth.insertAll _ _ [])) =
    Forest.map Prod.fst (Growth.insertAll _ _ (Growth.unnoted []))
  rw [← same, Growth.unnoted_eq, Forest.map_map, Forest.map_map]

/-! ### What is kept -/

/-- What is kept of steps that come together in a node of a world document, the first first: the
data of the last one that is not inherited, or of the last one; the first name; and the mark of
inherited content if all have it. -/
structure IsKeptOf (notes : List (Step Tag)) (t : Tag) (e : Extra) : Prop where
  inOrder : notes.Pairwise (fun b c => b.origin < c.origin)
  data : ((notes.filter (fun c => !c.extra.inherited)).getLast?.or notes.getLast?).map Step.data =
    some t
  id : e.id = notes.findSome? (fun c => c.extra.id)
  inherited : e.inherited = notes.all (fun c => c.extra.inherited)

namespace IsKeptOf

variable {notes : List (Step Tag)} {t : Tag} {e : Extra}

theorem single (s : Step Tag) : IsKeptOf [s] s.data s.extra where
  inOrder := List.pairwise_singleton _ s
  data := by cases h : s.extra.inherited <;> simp [h]
  id := by cases h : s.extra.id <;> simp [h]
  inherited := by simp

theorem concat (h : IsKeptOf notes t e) (number : Nat) {s : Step Tag}
    (earlier : ∀ b ∈ notes, b.origin < s.origin) :
    IsKeptOf (notes ++ [s]) (Step.settle ⟨t, e, number⟩ s).1 (Step.settle ⟨t, e, number⟩ s).2 where
  inOrder := List.pairwise_append.2 ⟨h.inOrder, List.pairwise_singleton _ s, by simpa using earlier⟩
  data := by
    have kept := h.data
    rw [List.filter_append, List.getLast?_append, List.getLast?_append]
    cases own : s.extra.inherited with
    | false => simp [Step.settle, own]
    | true =>
      cases all : e.inherited with
      | true =>
        have none : notes.filter (fun c => !c.extra.inherited) = [] := by
          rw [h.inherited, List.all_eq_true] at all
          simpa using all
        simp [Step.settle, own, all, none]
      | false =>
        have some : notes.filter (fun c => !c.extra.inherited) ≠ [] := by
          rw [h.inherited, List.all_eq_false] at all
          simpa using all
        have last := List.getLast?_eq_some_getLast some
        rw [last, Option.some_or] at kept
        rw [last]
        simpa [Step.settle, own, all, -List.getLast_filter] using kept
  id := by
    rw [List.findSome?_append, ← h.id]
    cases hs : s.extra.id <;> simp [Step.settle, hs]
  inherited := by simp [Step.settle, h.inherited, List.all_append]

end IsKeptOf

/-! ### Laying a forest -/

mutual

def Node.steps (first : Nat) : Node α → List (Step α)
  | ⟨d, e, cs⟩ => ⟨d, e, first⟩ :: Forest.steps (first + 1) cs

def Forest.steps (first : Nat) : Forest α → List (Step α)
  | [] => []
  | n :: rest => n.steps first ++ Forest.steps (first + n.size) rest

end

theorem Forest.origins_steps (t : Forest α) (first : Nat) :
    (Forest.steps first t).map Step.origin = List.range' first (Forest.size t) := by
  induction t using Forest.induction generalizing first with
  | nil => rfl
  | cons d e cs rest hcs hrest =>
    rw [steps, Node.steps, List.map_append, List.map_cons, hcs, hrest, size, ← List.range'_append_1,
      size_eq, Nat.add_comm 1, List.range'_succ]

theorem Forest.nodup_steps (t : Forest α) (first : Nat) : (Forest.steps first t).Nodup := by
  refine .of_map Step.origin ?_
  rw [origins_steps]
  exact List.nodup_range'

namespace Growth

/-- Paths that start with one step go below one node: below a sibling that the step joins, or below
a new one, which stands behind those that do not rank above it. -/
theorem Absorbs.laid [DecidableEq κ] {r : Rules α κ} (absorbs : Absorbs r) (s : Step α)
    {paths : List (Path α)} (hne : paths ≠ []) (g : Growth α) :
    (∃ before n after, g = before ++ n :: after ∧
      Meets r s (after.reverse.map step) (step n) (before.reverse.map step) ∧
      insertAll r (paths.map (s :: ·)) g =
        before ++ ⟨((r.combine (step n) s).1, n.data.2), (r.combine (step n) s).2,
          insertAll r paths n.children⟩ :: after) ∨
    ∃ before after, g = before ++ after ∧
      (r.outranked s.data (before.reverse.map (fun n => n.data.1)) = false ∧
        ∀ n ∈ after, r.ranksBelow s.data n.data.1 = true) ∧
      insertAll r (paths.map (s :: ·)) g =
        before ++ ⟨(s.data, s.origin), s.extra, insertAll r paths []⟩ :: after := by
  rcases meets_or_isNew r s g with ⟨before, n, after, rfl, meets⟩ | new
  · exact .inl ⟨before, n, after, rfl, meets, absorbs.insertAll_of_meets meets hne⟩
  · obtain ⟨before, after, rfl, put, behind⟩ := exists_of_isNew new
    exact .inr ⟨before, after, rfl, behind, absorbs.insertAll_of_put new.strange put hne⟩

def notes (g : Growth (Tag × List (Step Tag))) : List (Step Tag) :=
  (Forest.preorder g).flatMap (fun x => x.1.1.2)

/-- Every node holds what is kept of its notes, and their numbers are below a bound. -/
def IsNoted (bound : Nat) (g : Growth (Tag × List (Step Tag))) : Prop :=
  ∀ x ∈ Forest.preorder g, IsKeptOf x.1.1.2 x.1.1.1 x.2 ∧ ∀ c ∈ x.1.1.2, c.origin < bound

variable {bound : Nat} {g h : Growth (Tag × List (Step Tag))}

theorem notes_append : notes (g ++ h) = notes g ++ notes h := by
  simp [notes, Forest.preorder_append]

theorem notes_cons (d : Tag × List (Step Tag)) (number : Nat) (e : Extra) :
    notes (⟨(d, number), e, g⟩ :: h) = d.2 ++ (notes g ++ notes h) := by
  simp [notes, Forest.preorder_cons]

theorem isNoted_append : IsNoted bound (g ++ h) ↔ IsNoted bound g ∧ IsNoted bound h := by
  simp only [IsNoted, Forest.preorder_append, List.forall_mem_append]

theorem isNoted_cons (d : Tag × List (Step Tag)) (number : Nat) (e : Extra) :
    IsNoted bound (⟨(d, number), e, g⟩ :: h) ↔
      (IsKeptOf d.2 d.1 e ∧ ∀ c ∈ d.2, c.origin < bound) ∧ IsNoted bound g ∧ IsNoted bound h := by
  simp only [IsNoted, Forest.preorder_cons, List.forall_mem_cons, List.forall_mem_append]

theorem IsNoted.mono {bound' : Nat} (le : bound ≤ bound') (noted : IsNoted bound g) :
    IsNoted bound' g :=
  fun x hx => ⟨(noted x hx).1, fun c hc => Nat.lt_of_lt_of_le ((noted x hx).2 c hc) le⟩

variable {order : List Category}

theorem perm_of_inner (before own after : List β) (b : β) {inner inner' more : List β}
    (perm : inner'.Perm (inner ++ more)) :
    (before ++ ((own ++ [b]) ++ (inner' ++ after))).Perm
      (before ++ (own ++ (inner ++ after)) ++ b :: more) := by
  rw [← Multiset.coe_eq_coe] at perm ⊢
  simp only [← Multiset.coe_add, ← Multiset.cons_coe, ← Multiset.singleton_add, Multiset.coe_nil,
    perm]
  abel

/-- Laying in these paths notes each of these steps once, beside what has been noted before. -/
def NotesOnce (order : List Category) (first size : Nat) (paths : List (Path Tag))
    (steps : List (Step Tag)) : Prop :=
  ∀ g, IsNoted first g →
    IsNoted (first + size) (insertAll (regrowth order).noting (paths.map (List.map Step.noted)) g) ∧
      (notes (insertAll (regrowth order).noting (paths.map (List.map Step.noted)) g)).Perm
        (notes g ++ steps)

theorem notesOnce_node {t : Tag} {e : Extra} {cs : Forest Tag} {first : Nat}
    (below : NotesOnce order (first + 1) (Forest.size cs) (Forest.pathsFrom (first + 1) cs)
      (Forest.steps (first + 1) cs)) :
    NotesOnce order first (Node.size ⟨t, e, cs⟩) (Node.paths first ⟨t, e, cs⟩)
      (Node.steps first ⟨t, e, cs⟩) := by
  intro g noted
  have ne : (Forest.rests (first + 1) cs).map (List.map Step.noted) ≠ [] := by
    simpa using Forest.rests_ne_nil (first + 1) cs
  have paths : (Node.paths first ⟨t, e, cs⟩).map (List.map Step.noted) =
      ((Forest.rests (first + 1) cs).map (List.map Step.noted)).map
        (Step.noted ⟨t, e, first⟩ :: ·) := by
    rw [Forest.paths_eq_rests, List.map_map, List.map_map]
    rfl
  have absorbs : Absorbs (regrowth order).noting := absorbs_noting absorbs_regrowth
  rw [paths, Forest.size_eq, Node.steps]
  rcases absorbs.laid (Step.noted ⟨t, e, first⟩) ne g with
    ⟨before, n, after, rfl, -, put⟩ | ⟨before, after, rfl, -, put⟩
  · obtain ⟨⟨d, number⟩, x, inner⟩ := n
    obtain ⟨hbefore, hnode⟩ := isNoted_append.1 noted
    obtain ⟨⟨kept, earlier⟩, hinner, hafter⟩ := (isNoted_cons ..).1 hnode
    obtain ⟨noted', perm⟩ := below inner (hinner.mono (Nat.le_succ first))
    have combined : (regrowth order).noting.combine (step ⟨(d, number), x, inner⟩)
        (Step.noted ⟨t, e, first⟩) =
          (((Step.settle ⟨d.1, x, number⟩ ⟨t, e, first⟩).1, d.2 ++ [⟨t, e, first⟩]),
            (Step.settle ⟨d.1, x, number⟩ ⟨t, e, first⟩).2) := by
      rw [← Step.joinNotes_fresh earlier]
      rfl
    rw [put, combined, insertAll_rests _ rfl, isNoted_append, isNoted_cons]
    refine ⟨⟨hbefore.mono (by omega), ⟨kept.concat number earlier, ?_⟩, noted'.mono (by omega),
      hafter.mono (by omega)⟩, ?_⟩
    · intro c hc
      rcases List.mem_append.1 hc with hc | hc
      · have := earlier c hc
        omega
      · obtain rfl := List.mem_singleton.1 hc
        show first < _
        omega
    · rw [notes_append, notes_cons, notes_append, notes_cons]
      exact perm_of_inner (notes before) d.2 (notes after) ⟨t, e, first⟩ perm
  · obtain ⟨hbefore, hafter⟩ := isNoted_append.1 noted
    obtain ⟨noted', perm⟩ := below [] (fun x hx => by simp [Forest.preorder] at hx)
    have own : (Step.noted (⟨t, e, first⟩ : Step Tag)).data = (t, [⟨t, e, first⟩]) := rfl
    rw [put, insertAll_rests _ rfl, isNoted_append, own, isNoted_cons]
    refine ⟨⟨hbefore.mono (by omega), ⟨IsKeptOf.single ⟨t, e, first⟩, ?_⟩, noted'.mono (by omega),
      hafter.mono (by omega)⟩, ?_⟩
    · intro c hc
      obtain rfl := List.mem_singleton.1 hc
      show first < _
      omega
    · rw [notes_append, notes_cons, notes_append]
      exact perm_of_inner (notes before) [] (notes after) ⟨t, e, first⟩ perm

/-- Laying in a forest notes each of its nodes once. -/
theorem notesOnce (t : Forest Tag) (first : Nat) :
    NotesOnce order first (Forest.size t) (Forest.pathsFrom first t) (Forest.steps first t) := by
  induction t using Forest.induction generalizing first with
  | nil =>
    intro g noted
    exact ⟨noted, by simp [Forest.pathsFrom, Forest.steps, insertAll_nil]⟩
  | cons t e cs rest hcs hrest =>
    intro g noted
    obtain ⟨noted, perm⟩ := notesOnce_node (hcs (first + 1)) g noted
    obtain ⟨noted', perm'⟩ := hrest (first + Node.size ⟨t, e, cs⟩) _ noted
    rw [Forest.pathsFrom, List.map_append, insertAll_append, Forest.size, Forest.steps,
      ← List.append_assoc, ← Nat.add_assoc]
    exact ⟨noted', perm'.trans (perm.append_right _)⟩

end Growth

/-- Whatever the order of documents, local data beats inherited data. In the forest that a world
document grows back into, each node is what is kept of nodes of the source in document order, and
every node of the source is kept in exactly one. -/
theorem WorldOutline.keeps_ledger {t : Forest Tag} {o : WorldOutline}
    (h : WorldOutline.ofForest t = .ok o) :
    Forest.map Prod.fst o.ledger = o.forest ∧
      (∀ x ∈ Forest.preorder o.ledger, IsKeptOf x.1.2 x.1.1 x.2) ∧
      ((Forest.preorder o.ledger).flatMap (fun x => x.1.2)).Perm (Forest.steps 0 t) ∧
      (Forest.steps 0 t).Nodup := by
  obtain ⟨-, rfl⟩ := Outline.ofForest_eq_ok.1 h
  let g := Growth.insertAll (Growth.regrowth []).noting
    ((Forest.pathsFrom 0 t).map (List.map Step.noted)) []
  obtain ⟨noted, perm⟩ : Growth.IsNoted (0 + Forest.size t) g ∧
      g.notes.Perm (Growth.notes [] ++ Forest.steps 0 t) :=
    Growth.notesOnce t 0 [] fun x hx => by simp [Forest.preorder] at hx
  have grown : Forest.preorder (Outline.ledger ⟨worldRules, Forest.paths t⟩) =
      (Forest.preorder g).map (fun x => (x.1.1, x.2)) := Forest.preorder_map Prod.fst g
  refine ⟨Outline.map_ledger _, fun x hx => ?_, ?_, Forest.nodup_steps t 0⟩
  · rw [grown] at hx
    obtain ⟨y, hy, rfl⟩ := List.mem_map.1 hx
    exact (noted y hy).1
  · rw [grown, List.flatMap_map]
    exact perm

/-- A hall, and once more as a base tells of it. -/
def hallTwice : Forest Tag :=
  [.branch (.asset "house")
    [.branch (.room "hall") [.branch (.field .name) [.leaf (.text "Hall")]],
      ⟨.entity (.plain .room "hall" (some "manor")), { id := some "h1", inherited := true }, []⟩]]

theorem WorldOutline.keeps_ledger_hallTwice : ∃ o, WorldOutline.ofForest hallTwice = .ok o ∧
    Forest.map Prod.fst o.ledger = o.forest ∧
      (∀ x ∈ Forest.preorder o.ledger, IsKeptOf x.1.2 x.1.1 x.2) ∧
      ((Forest.preorder o.ledger).flatMap (fun x => x.1.2)).Perm (Forest.steps 0 hallTwice) ∧
      (Forest.steps 0 hallTwice).Nodup :=
  ⟨_, rfl, keeps_ledger rfl⟩

/-- The base tells last of the hall, and yet nothing but its name for it is kept. -/
example : Forest.ofPaths worldRules (Forest.paths hallTwice) =
    [.branch (.asset "house")
      [⟨.room "hall", .named "h1", [.branch (.field .name) [.leaf (.text "Hall")]]⟩]] := by
  decide

end WorldMarkup
