import Mathlib.Data.List.Basic
import WorldMarkup.Tree.Query

/-!
What queries mean. A query is told by the steps of a path that it speaks of, and chains by the
steps they run through. Main statement: a query marks exactly the steps that it speaks of.
-/

set_option autoImplicit false
set_option relaxedAutoImplicit false

namespace WorldMarkup.Query

variable {α : Type} {n : Nat}

/-- Whether a chain ends at a step: it has one step of each property in order, and each two that
follow each other are linked. A chain through no property ends nowhere. -/
def ChainEndsAt (linked : Fin n → Fin n → Prop) (properties : List (Fin n → Prop)) (k : Fin n) :
    Prop :=
  ∃ steps : List (Fin n), List.Forall₂ (fun P i => P i) properties steps ∧
    steps.IsChain linked ∧ steps.getLast? = some k

mutual

/-- Whether a query speaks of a step of the path. -/
def Means (path : Path α) : Query α → Fin path.length → Prop
  | .test p, k => p path[k].data = true
  | .all qs, k => ∀ P ∈ meanings path qs, P k
  | .any qs, k => ∃ P ∈ meanings path qs, P k
  | .not q, k => ¬ Means path q k
  | .sequence qs, k => ChainEndsAt (fun i j => i < j) (meanings path qs) k
  | .connected qs, k => ChainEndsAt (fun i j => j.val = i.val + 1) (meanings path qs) k
  | .after q anchor, k => Means path q k ∧ ∃ j, j < k ∧ Means path anchor j
  | .before q anchor, k => Means path q k ∧ ∃ j, k < j ∧ Means path anchor j

def meanings (path : Path α) : List (Query α) → List (Fin path.length → Prop)
  | [] => []
  | q :: qs => Means path q :: meanings path qs

end

/-! ### Marks that tell a property -/

/-- The marks are those of the steps with the property. -/
structure Tells (marks : List Bool) (P : Fin n → Prop) : Prop where
  length : marks.length = n
  iff : ∀ k : Fin n, marks[k.val]? = some true ↔ P k

variable {ms ms' : List Bool} {P P' : Fin n → Prop}

namespace Tells

theorem congr (h : Tells ms P) (same : ∀ k, P k ↔ P' k) : Tells ms P' :=
  ⟨h.length, fun k => (h.iff k).trans (same k)⟩

theorem meet (h : Tells ms P) (h' : Tells ms' P') :
    Tells (Query.meet ms ms') (fun k => P k ∧ P' k) := by
  refine ⟨by simp [h.length, h'.length], fun k => ?_⟩
  rw [← h.iff, ← h'.iff, Query.meet, List.getElem?_zipWith_eq_some]
  simp [Bool.and_eq_true]

theorem join (h : Tells ms P) (h' : Tells ms' P') :
    Tells (Query.join ms ms') (fun k => P k ∨ P' k) := by
  refine ⟨by simp [h.length, h'.length], fun k => ?_⟩
  have hk : k.val < ms.length := h.length ▸ k.2
  have hk' : k.val < ms'.length := h'.length ▸ k.2
  rw [← h.iff, ← h'.iff, Query.join, List.getElem?_zipWith]
  simp [hk, hk']

theorem not (h : Tells ms P) : Tells (ms.map (fun m => !m)) (fun k => ¬ P k) := by
  refine ⟨by simp [h.length], fun k => ?_⟩
  have hk : k.val < ms.length := h.length ▸ k.2
  rw [← h.iff]
  simp [hk]

theorem replicate (b : Bool) : Tells (List.replicate n b) (fun _ : Fin n => b = true) :=
  ⟨by simp, fun k => by simp [k.2]⟩

theorem look (h : Tells ms P) (linked : Nat → Nat → Prop) (length : ms'.length = ms.length)
    (iff : ∀ k < ms.length, ms'[k]? = some true ↔ ∃ j, linked j k ∧ ms[j]? = some true) :
    Tells ms' (fun k : Fin n => ∃ j : Fin n, linked j.val k.val ∧ P j) := by
  refine ⟨length.trans h.length, fun k => (iff k (h.length ▸ k.2)).trans ?_⟩
  constructor
  · rintro ⟨j, link, mark⟩
    have hj : j < n := h.length ▸ (List.getElem?_eq_some_iff.1 mark).1
    exact ⟨⟨j, hj⟩, link, (h.iff ⟨j, hj⟩).1 mark⟩
  · rintro ⟨j, link, own⟩
    exact ⟨j.val, link, (h.iff j).2 own⟩

end Tells

theorem getElem?_anyEarlier (seen : Bool) (ms : List Bool) {k : Nat} (hk : k < ms.length) :
    (anyEarlier seen ms)[k]? = some true ↔
      seen = true ∨ ∃ j, j < k ∧ ms[j]? = some true := by
  induction ms generalizing seen k with
  | nil => simp at hk
  | cons m ms ih =>
    cases k with
    | zero => simp [anyEarlier]
    | succ k =>
      rw [anyEarlier, List.getElem?_cons_succ, ih _ (by simpa using hk), Bool.or_eq_true, or_assoc]
      refine or_congr_right ⟨?_, ?_⟩
      · rintro (first | ⟨j, hj, mark⟩)
        · exact ⟨0, by omega, by simp [first]⟩
        · exact ⟨j + 1, by omega, by simpa using mark⟩
      · rintro ⟨j, hj, mark⟩
        cases j with
        | zero => exact .inl (by simpa using mark)
        | succ j => exact .inr ⟨j, by omega, by simpa using mark⟩

theorem getElem?_anyLater (ms : List Bool) {k : Nat} (hk : k < ms.length) :
    (anyLater ms)[k]? = some true ↔ ∃ j, k < j ∧ ms[j]? = some true := by
  induction ms generalizing k with
  | nil => simp at hk
  | cons m ms ih =>
    have shift (k : Nat) : (∃ j, k < j ∧ (m :: ms)[j]? = some true) ↔
        ∃ j, k ≤ j ∧ ms[j]? = some true := by
      constructor
      · rintro ⟨_ | j, hj, mark⟩
        · omega
        · exact ⟨j, by omega, by simpa using mark⟩
      · rintro ⟨j, hj, mark⟩
        exact ⟨j + 1, by omega, by simpa using mark⟩
    rw [shift]
    cases k with
    | zero => simp [anyLater, ← List.mem_iff_getElem?]
    | succ k => exact ih (by simpa using hk)

theorem getElem?_justBefore (ms : List Bool) {k : Nat} (hk : k < ms.length) :
    (justBefore ms)[k]? = some true ↔ ∃ j, k = j + 1 ∧ ms[j]? = some true := by
  rw [justBefore, List.getElem?_take_of_lt hk]
  cases k with
  | zero => simp
  | succ k => simp

/-! ### Several queries -/

section Several

variable {marks : List (List Bool)} {properties : List (Fin n → Prop)}

theorem tells_foldl_meet (each : List.Forall₂ Tells marks properties) (start : Tells ms P) :
    Tells (marks.foldl meet ms) (fun k => P k ∧ ∀ Q ∈ properties, Q k) := by
  induction each generalizing ms P with
  | nil => exact start.congr (by simp)
  | cons tells _ ih => exact (ih (start.meet tells)).congr (by simp [and_assoc])

theorem tells_foldl_join (each : List.Forall₂ Tells marks properties) (start : Tells ms P) :
    Tells (marks.foldl join ms) (fun k => P k ∨ ∃ Q ∈ properties, Q k) := by
  induction each generalizing ms P with
  | nil => exact start.congr (by simp)
  | cons tells _ ih => exact (ih (start.join tells)).congr (by simp [or_assoc])

variable {link : List Bool → List Bool} {linked : Fin n → Fin n → Prop}
  (follows : ∀ {ms : List Bool} {P : Fin n → Prop}, Tells ms P →
    Tells (link ms) (fun k => ∃ j, linked j k ∧ P j))

include follows

theorem tells_foldl_link (each : List.Forall₂ Tells marks properties) (start : Tells ms P) :
    Tells (marks.foldl (fun reach marks => meet marks (link reach)) ms)
      (ChainEndsAt linked (P :: properties)) := by
  induction each generalizing ms P with
  | nil =>
    refine start.congr (fun k => ⟨fun own => ⟨[k], ?_, .singleton k, rfl⟩, ?_⟩)
    · exact .cons own .nil
    · rintro ⟨steps, all, -, last⟩
      cases all with
      | cons own none =>
        cases none
        obtain rfl := Option.some.inj last
        exact own
  | @cons _ Q _ properties tells _ ih =>
    rw [List.foldl_cons]
    refine (ih (tells.meet (follows start))).congr (fun k => ⟨?_, ?_⟩)
    · rintro ⟨steps, all, linked, last⟩
      cases all with
      | @cons _ i _ steps own more =>
        obtain ⟨here, j, link, there⟩ := own
        exact ⟨j :: i :: steps, .cons there (.cons here more), .cons_cons link linked, last⟩
    · rintro ⟨steps, all, linked, last⟩
      cases all with
      | @cons _ j _ _ there more =>
        cases more with
        | @cons _ i _ steps here more =>
          obtain ⟨link, linked⟩ := List.isChain_cons_cons.1 linked
          exact ⟨i :: steps, .cons ⟨here, j, link, there⟩ more, linked, last⟩

/-- The marks of a chain tell where it ends. -/
theorem tells_chain (each : List.Forall₂ Tells marks properties) :
    Tells (chain link n marks) (ChainEndsAt linked properties) := by
  cases each with
  | nil =>
    refine (Tells.replicate false).congr (fun k => ⟨by simp, ?_⟩)
    rintro ⟨steps, all, -, last⟩
    cases all
    simp at last
  | cons tells each => exact tells_foldl_link follows each tells

end Several

/-! ### All queries -/

theorem Tells.anyEarlier {ms : List Bool} {P : Fin n → Prop} (h : Tells ms P) :
    Tells (Query.anyEarlier false ms) (fun k => ∃ j, j < k ∧ P j) :=
  h.look (fun j k => j < k) (length_anyEarlier false ms)
    (fun _ hk => by simp [getElem?_anyEarlier false ms hk])

theorem Tells.anyLater {ms : List Bool} {P : Fin n → Prop} (h : Tells ms P) :
    Tells (Query.anyLater ms) (fun k => ∃ j, k < j ∧ P j) :=
  h.look (fun j k => k < j) (length_anyLater ms) (fun _ hk => getElem?_anyLater ms hk)

theorem Tells.justBefore {ms : List Bool} {P : Fin n → Prop} (h : Tells ms P) :
    Tells (Query.justBefore ms) (fun k : Fin n => ∃ j : Fin n, k.val = j.val + 1 ∧ P j) :=
  h.look (fun j k => k = j + 1) (length_justBefore ms) (fun _ hk => getElem?_justBefore ms hk)

mutual

theorem tells_marks (path : Path α) : ∀ q : Query α, Tells (q.marks path) (Means path q)
  | .test p => ⟨by simp [marks], fun k => by simp [marks, Means]⟩
  | .all qs => by
    have every := tells_foldl_meet (tells_marksEach path qs) (Tells.replicate true)
    rw [marks]
    exact every.congr (fun k => by simp [Means])
  | .any qs => by
    have some := tells_foldl_join (tells_marksEach path qs) (Tells.replicate false)
    rw [marks]
    exact some.congr (fun k => by simp [Means])
  | .not q => by
    rw [marks]
    exact (tells_marks path q).not.congr (fun k => by simp [Means])
  | .sequence qs => by
    rw [marks]
    exact (tells_chain Tells.anyEarlier (tells_marksEach path qs)).congr
      (fun k => by simp [Means])
  | .connected qs => by
    rw [marks]
    exact (tells_chain Tells.justBefore (tells_marksEach path qs)).congr
      (fun k => by simp [Means])
  | .after q anchor => by
    rw [marks]
    exact ((tells_marks path q).meet (tells_marks path anchor).anyEarlier).congr
      (fun k => by simp [Means])
  | .before q anchor => by
    rw [marks]
    exact ((tells_marks path q).meet (tells_marks path anchor).anyLater).congr
      (fun k => by simp [Means])

theorem tells_marksEach (path : Path α) :
    ∀ qs : List (Query α), List.Forall₂ Tells (marksEach path qs) (meanings path qs)
  | [] => by
    rw [marksEach, meanings]
    exact .nil
  | q :: qs => by
    rw [marksEach, meanings]
    exact .cons (tells_marks path q) (tells_marksEach path qs)

end

/-- A query has a mark for each step of a path, set on exactly the steps that it speaks of. -/
theorem marks_iff_means (q : Query α) (path : Path α) :
    (q.marks path).length = path.length ∧
      ∀ k : Fin path.length, (q.marks path)[k.val]? = some true ↔ Means path q k :=
  ⟨(tells_marks path q).length, (tells_marks path q).iff⟩

end WorldMarkup.Query
