import WorldMarkup.World.Naming
import Mathlib.Data.List.Basic
import Mathlib.Data.List.Perm.Basic
import Mathlib.Data.List.Nodup

/-!
Naming the nodes that lack a name. The names given out are numbered on from the count of the
source, whatever names the document brings along. Main statements: naming fills in the missing
names and changes nothing else, and the names of a document with distinct names stay distinct
exactly when none of the names given out stood in it before.
-/

set_option autoImplicit false
set_option relaxedAutoImplicit false

namespace WorldMarkup

def Forest.ids {α : Type} (t : Forest α) : List String :=
  (Forest.preorder t).filterMap (fun x => x.2.id)

namespace Naming

def lacks (x : Tag × Extra) : Bool := wants x.1 && x.2.id.isNone

def missing (t : Forest Tag) : Nat := (Forest.preorder t).countP lacks

/-- The names given out next, so many of them. -/
def upcoming (g : Naming) (k : Nat) : List String := (List.range' (g.count + 1) k).map g.name

/-- A node before and after naming. A name stays as it is, and a node without a name gets one if
it is to have one. -/
structure Filled (x y : Tag × Extra) : Prop where
  data : y.1 = x.1
  inherited : y.2.inherited = x.2.inherited
  kept : ∀ s : String, x.2.id = some s → y.2.id = some s
  named : wants x.1 = true → y.2.id.isSome = true
  unnamed : wants x.1 = false → y.2.id = x.2.id

/-- Name the nodes of a list one after another. -/
def anchorAll (s : Naming × Nat) : List (Tag × Extra) → List (Tag × Extra) × Naming × Nat
  | [] => ([], s)
  | x :: rest =>
    let y := anchor s x.1 x.2
    let ys := anchorAll y.2 rest
    (y.1 :: ys.1, ys.2)

theorem anchorAll_append (xs ys : List (Tag × Extra)) : ∀ s : Naming × Nat,
    anchorAll s (xs ++ ys) =
      ((anchorAll s xs).1 ++ (anchorAll (anchorAll s xs).2 ys).1,
        (anchorAll (anchorAll s xs).2 ys).2) := by
  induction xs with
  | nil => intro s; rfl
  | cons x xs ih =>
    intro s
    simp only [List.cons_append, anchorAll, ih]

theorem preorder_mapAccum (t : Forest Tag) : ∀ s : Naming × Nat,
    (Forest.preorder (Forest.mapAccum anchor s t).1, (Forest.mapAccum anchor s t).2) =
      anchorAll s (Forest.preorder t) := by
  induction t using Forest.induction with
  | nil => intro s; rfl
  | cons d e cs rest hcs hrest =>
    intro s
    simp only [Forest.mapAccum, Node.mapAccum, Forest.preorder, Node.preorder,
      List.cons_append, anchorAll, anchorAll_append, ← hcs, ← hrest]

theorem bare_mapAccum (t : Forest Tag) : ∀ s : Naming × Nat,
    Forest.bare (Forest.mapAccum anchor s t).1 = Forest.bare t := by
  induction t using Forest.induction with
  | nil => intro s; rfl
  | cons d e cs rest hcs hrest =>
    intro s
    have hd : (anchor s d e).1.1 = d := by
      unfold anchor
      split <;> rfl
    simp only [Forest.mapAccum, Node.mapAccum, Forest.bare, Node.bare, hcs, hrest, hd]

theorem anchor_eq (s : Naming × Nat) (x : Tag × Extra) :
    anchor s x.1 x.2 =
      if lacks x then ((x.1, { x.2 with id := some (s.1.name (s.1.count + 1)) }),
        { s.1 with count := s.1.count + 1 }, s.2 + 1)
      else (x, s) := rfl

theorem filled_anchor (s : Naming × Nat) (x : Tag × Extra) : Filled x (anchor s x.1 x.2).1 := by
  rw [anchor_eq]
  split
  case isTrue h =>
    obtain ⟨hw, hn⟩ := Bool.and_eq_true_iff.1 h
    rw [Option.isNone_iff_eq_none] at hn
    exact ⟨rfl, rfl, fun s hs => by simp [hn] at hs, fun _ => rfl, fun h' => by simp [hw] at h'⟩
  case isFalse h =>
    refine ⟨rfl, rfl, fun s hs => hs, fun hw => ?_, fun _ => rfl⟩
    simpa [lacks, hw, Option.isSome_iff_ne_none] using h

theorem filled_anchorAll (xs : List (Tag × Extra)) : ∀ s : Naming × Nat,
    List.Forall₂ Filled xs (anchorAll s xs).1 := by
  induction xs with
  | nil => intro s; exact .nil
  | cons x xs ih =>
    intro s
    exact .cons (filled_anchor s x) (ih _)

theorem upcoming_succ (g : Naming) (k : Nat) :
    g.upcoming (k + 1) =
      g.name (g.count + 1) :: Naming.upcoming { g with count := g.count + 1 } k := by
  simp only [upcoming, List.range'_succ, List.map_cons]
  rfl

/-- The names of the named nodes are the old ones and the next ones, one for each node that
lacked a name, and so many are counted. -/
theorem anchorAll_spec (xs : List (Tag × Extra)) : ∀ (g : Naming) (n : Nat),
    (anchorAll (g, n) xs).2 = ({ g with count := g.count + xs.countP lacks }, n + xs.countP lacks) ∧
      ((anchorAll (g, n) xs).1.filterMap (fun x => x.2.id)).Perm
        (xs.filterMap (fun x => x.2.id) ++ g.upcoming (xs.countP lacks)) := by
  induction xs with
  | nil => intro g n; exact ⟨rfl, .refl _⟩
  | cons x xs ih =>
    intro g n
    simp only [anchorAll, anchor_eq]
    cases h : lacks x with
    | false =>
      obtain ⟨hcount, hperm⟩ := ih g n
      have hcountP : (x :: xs).countP lacks = xs.countP lacks :=
        List.countP_cons_of_neg (by simp [h])
      rw [hcountP]
      refine ⟨hcount, ?_⟩
      cases hid : x.2.id with
      | none => simpa [hid] using hperm
      | some s => simpa [hid] using hperm
    | true =>
      obtain ⟨hcount, hperm⟩ := ih { g with count := g.count + 1 } (n + 1)
      have hcountP : (x :: xs).countP lacks = xs.countP lacks + 1 :=
        List.countP_cons_of_pos h
      have hid : x.2.id = none := by
        rw [lacks, Bool.and_eq_true_iff] at h
        exact Option.isNone_iff_eq_none.1 h.2
      rw [hcountP, upcoming_succ]
      constructor
      · simp only [if_true, hcount, Nat.add_assoc, Nat.add_comm 1]
      · simp only [if_true, List.filterMap_cons, hid]
        exact (hperm.cons _).trans List.perm_middle.symm

theorem name_injective (g : Naming) : Function.Injective g.name := by
  intro n m h
  simp only [name, String.append_assoc, String.append_right_inj] at h
  have digits : Nat.toDigits 10 n = Nat.toDigits 10 m := by
    simpa only [Nat.toString_eq_repr, Nat.toList_repr] using congrArg String.toList h
  simpa only [Nat.ofDigitChars_ten_toDigits] using
    congrArg (fun ds => Nat.ofDigitChars 10 ds 0) digits

theorem nodup_upcoming (g : Naming) (k : Nat) : (g.upcoming k).Nodup :=
  List.Nodup.map g.name_injective List.nodup_range'

/-- Naming fills in the names that are missing and changes nothing else. If the names of the
document were distinct, they are distinct afterwards exactly when none of the names given out
stood in the document already: the count of a source knows nothing of the names that another
source with its seed gave out before. -/
theorem assignMissing_fills (g : Naming) (t : Forest Tag) (distinct : (Forest.ids t).Nodup) :
    Forest.bare (g.assignMissing t).1 = Forest.bare t ∧
      List.Forall₂ Filled (Forest.preorder t) (Forest.preorder (g.assignMissing t).1) ∧
      (g.assignMissingIds t).1.2 = missing t ∧
      (g.assignMissing t).2 = { g with count := g.count + missing t } ∧
      (Forest.ids (g.assignMissing t).1).Perm (Forest.ids t ++ g.upcoming (missing t)) ∧
      ((Forest.ids (g.assignMissing t).1).Nodup ↔
        ∀ s ∈ g.upcoming (missing t), s ∉ Forest.ids t) := by
  obtain ⟨hforest, hcount⟩ := Prod.mk.inj (preorder_mapAccum t (g, 0))
  obtain ⟨count, names⟩ := anchorAll_spec (Forest.preorder t) g 0
  rw [← hcount] at count
  rw [← hforest] at names
  obtain ⟨source, assigned⟩ := Prod.mk.inj count
  refine ⟨bare_mapAccum t (g, 0), hforest ▸ filled_anchorAll _ (g, 0),
    assigned.trans (Nat.zero_add _), source, names, ?_⟩
  calc (Forest.ids (g.assignMissing t).1).Nodup
      ↔ (Forest.ids t ++ g.upcoming (missing t)).Nodup := names.nodup_iff
    _ ↔ (Forest.ids t).Disjoint (g.upcoming (missing t)) := by
        rw [List.nodup_append']
        exact ⟨fun h => h.2.2, fun h => ⟨distinct, g.nodup_upcoming _, h⟩⟩
    _ ↔ ∀ s ∈ g.upcoming (missing t), s ∉ Forest.ids t := List.disjoint_right

/-- A house whose cellar was named in an earlier run, and whose hall was added since. -/
def houseWithNewHall : Forest Tag :=
  [.branch (.asset "house")
    [.leaf (.room "hall"), ⟨.room "cellar", .named "doc-1", []⟩]]

/-- The names of the house stay distinct when they are numbered on from one. -/
theorem assignMissing_fills_houseWithNewHall :
    (Forest.ids houseWithNewHall).Nodup ∧
      (Forest.ids (Naming.assignMissing ⟨"doc", 1⟩ houseWithNewHall).1).Nodup := by
  have distinct : (Forest.ids houseWithNewHall).Nodup := by decide
  obtain ⟨-, -, -, -, -, stays⟩ := assignMissing_fills ⟨"doc", 1⟩ houseWithNewHall distinct
  exact ⟨distinct, stays.2 (by decide)⟩

/-- A fresh source with the seed of the earlier run gives the name of the cellar to the hall. -/
theorem assignMissing_twice_houseWithNewHall :
    (Forest.ids houseWithNewHall).Nodup ∧
      Forest.ids (Naming.assignMissing ⟨"doc", 0⟩ houseWithNewHall).1 = ["doc-1", "doc-1"] ∧
      ¬ (Forest.ids (Naming.assignMissing ⟨"doc", 0⟩ houseWithNewHall).1).Nodup := by
  decide

end Naming

end WorldMarkup
