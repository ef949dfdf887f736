import Mathlib.Data.List.Forall2
import WorldMarkup.Proofs.Edit.Runs
import WorldMarkup.Proofs.Edit.Weights

/-!
Resolving edits a second time. Joining runs makes a forest lighter, and so does an edit that is
taken into a slot with something in it; a resolving that gives back what it was given has met no
edit but one that stands before all other siblings. Main statement: what comes of resolving edits
is left as it is by a second resolving exactly if at each level no edit stands, or a single net one
before all others, and no runs are to be joined there.
-/

set_option autoImplicit false
set_option relaxedAutoImplicit false

namespace WorldMarkup

open Forest

namespace Edit

variable {f : Forest Tag → Except FormError (Forest Tag)} {t u v done out : Forest Tag}
  {n : Node Tag} {s next : Slot} {h : Halves}

/-- An edit as a slot ends in it: a removal of something, or something in place of something. -/
def IsNet (n : Node Tag) : Prop :=
  ∃ target, target ≠ [] ∧ (n = .branch .remove target ∨ ∃ payload, payload ≠ [] ∧
    n = .branch .replace [.branch .replaceMatch target, .branch .replacePayload payload])

/-- Siblings that resolving leaves as they are: there is no edit among them, or a single one, net
and before all others, and no runs are to be joined. -/
def IsAtRest (t : Forest Tag) : Prop :=
  List.any t isEdit = false ∨
    joinText t = t ∧ ∃ n rest, t = n :: rest ∧ IsNet n ∧ List.any rest isEdit = false

/-! ### What slots weigh -/

theorem weight_replaceHalves {target payload : Option (Forest Tag)}
    (hh : replaceHalves target payload t = .ok h) :
    1 + weight h.target + (if weight h.payload = 0 then 0 else 1 + weight h.payload) ≤
      target.elim 0 (1 + weight ·) + payload.elim 0 (1 + weight ·) + weight t := by
  induction t generalizing target payload with
  | nil =>
    unfold replaceHalves at hh
    split at hh
    · obtain rfl := Except.ok.inj hh
      cases payload with
      | none => simp
      | some p =>
        simp only [Option.getD_some, Option.elim_some, weight_nil]
        split <;> omega
    · simp at hh
  | cons half rest ih =>
    rcases half with ⟨d, e, cs⟩
    rw [weight_cons]
    unfold replaceHalves at hh
    split at hh
    · rename_i hd
      obtain rfl : d = .replaceMatch := hd
      have below := ih hh
      simp only [Option.elim_some, Tag.weight] at below ⊢
      omega
    · rename_i hd
      obtain rfl : d = .replacePayload := hd
      have below := ih hh
      simp only [Option.elim_some, Tag.weight] at below ⊢
      omega
    · simp at hh

theorem weight_halves (hh : halves n = .ok h) :
    1 + weight h.target + (if weight h.payload = 0 then 0 else 2 + weight h.payload) ≤
      weight [n] := by
  rcases n with ⟨d, e, cs⟩
  have own := d.weight_pos
  rw [weight_cons, weight_nil]
  rw [halves] at hh
  split at hh
  · have held := weight_replaceHalves hh
    simp only [Option.elim_none] at held
    split at held <;> split <;> omega
  · obtain rfl := Except.ok.inj hh
    simp only [weight_nil, if_true]
    omega

namespace Slot

theorem weight_finish (s : Slot) :
    weight s.finish = if weight s.remove = 0 then weight s.add
      else 1 + weight s.remove + if weight s.add = 0 then 0 else 2 + weight s.add := by
  simp only [weight_eq_zero]
  rcases s with ⟨_ | ⟨a, add⟩, _ | ⟨r, remove⟩⟩
  · rfl
  · simp [finish, Node.branch, weight_cons, Tag.weight]
  · rfl
  · simp only [finish, Node.branch, List.isEmpty_cons, weight_cons, Tag.weight, weight_nil,
      reduceCtorEq, if_false]
    omega

theorem finish_eq_nil : s.finish = [] ↔ s.add = [] ∧ s.remove = [] := by
  rcases s with ⟨_ | ⟨a, add⟩, _ | ⟨r, remove⟩⟩ <;> simp [finish]

theorem finish_of_removes (add : Forest Tag) {remove : Forest Tag} (removes : remove ≠ []) :
    ∃ m, finish ⟨add, remove⟩ = [m] := by
  obtain ⟨r, remove, rfl⟩ := List.exists_cons_of_ne_nil removes
  cases add <;> exact ⟨_, rfl⟩

theorem weight_withoutFirstSpace (t : Forest Tag) : weight (withoutFirstSpace t) ≤ weight t := by
  cases t with
  | nil => exact Nat.le_refl _
  | cons n t =>
    rw [withoutFirstSpace]
    split
    · rcases n with ⟨d, e, cs⟩
      rw [weight_cons]
      omega
    · exact Nat.le_refl _

theorem weight_withoutLastSpace (t : Forest Tag) : weight (withoutLastSpace t) ≤ weight t := by
  rw [withoutLastSpace]
  split
  · rcases List.eq_nil_or_concat t with rfl | ⟨before, n, rfl⟩
    · exact Nat.le_refl _
    · rw [List.concat_eq_append, List.dropLast_concat, weight_append]
      omega
  · exact Nat.le_refl _

theorem absorb_of_empty (empty : s.add = []) (h : s.absorb n = .ok next) :
    ∃ half, halves n = .ok half ∧
      next = { add := half.payload, remove := s.remove ++ half.target } := by
  rw [absorb] at h
  obtain ⟨half, hhalf, h⟩ := Except.bind_eq_ok.1 h
  rw [if_pos (by simp [empty])] at h
  exact ⟨half, hhalf, (Except.ok.inj h).symm⟩

/-- An edit that meets something in its slot leaves in it no more than its payload and what stood
there, or puts the payload in its place and removes of its target what went beyond. -/
theorem absorb_of_filled (filled : s.add ≠ []) (h : s.absorb n = .ok next) :
    ∃ half, halves n = .ok half ∧
      ((next.remove = s.remove ∧ weight next.add ≤ weight half.payload + weight s.add) ∨
        ∃ r, weight r ≤ weight half.target ∧
          next = { add := half.payload, remove := s.remove ++ r }) := by
  rw [absorb] at h
  obtain ⟨half, hhalf, h⟩ := Except.bind_eq_ok.1 h
  rw [if_neg (by simpa using filled)] at h
  obtain ⟨c, hc, h⟩ := Except.bind_eq_ok.1 h
  refine ⟨half, hhalf, ?_⟩
  split at h
  · obtain rfl := Except.ok.inj h
    exact .inl ⟨rfl, Nat.le_add_right _ _⟩
  · rename_i r
    obtain rfl := Except.ok.inj h
    have lighter := weight_baseLonger hc
    have shorter := weight_withoutFirstSpace r
    refine .inl ⟨rfl, ?_⟩
    dsimp only
    rw [weight_append]
    split <;> omega
  · rename_i r
    obtain rfl := Except.ok.inj h
    have lighter := weight_baseLonger hc
    have shorter := weight_withoutLastSpace r
    refine .inl ⟨rfl, ?_⟩
    dsimp only
    rw [weight_append]
    split <;> omega
  · obtain rfl := Except.ok.inj h
    exact .inr ⟨_, weight_editLonger hc, rfl⟩
  · simp [throw, throwThe, MonadExceptOf.throw] at h

/-- An edit makes its slot no heavier than it was with the edit beside it, and lighter if it finds
something there. -/
theorem weight_absorb (h : s.absorb n = .ok next) :
    weight next.finish ≤ weight s.finish + weight [n] ∧
      (s.finish ≠ [] → weight next.finish < weight s.finish + weight [n]) := by
  rw [ne_eq, ← weight_eq_zero, weight_finish, weight_finish]
  by_cases empty : s.add = []
  · obtain ⟨half, hhalf, rfl⟩ := absorb_of_empty empty h
    have bound := weight_halves hhalf
    simp only [weight_append, empty, weight_nil, if_true]
    split at bound <;> split_ifs <;> omega
  · obtain ⟨half, hhalf, ⟨kept, add⟩ | ⟨r, lighter, rfl⟩⟩ := absorb_of_filled empty h
    · have bound := weight_halves hhalf
      rw [← weight_eq_zero] at empty
      rw [kept]
      split at bound <;> split_ifs <;> omega
    · have bound := weight_halves hhalf
      rw [← weight_eq_zero] at empty
      simp only [weight_append]
      split at bound <;> split_ifs <;> omega

end Slot

/-! ### What siblings weigh -/

theorem weight_takeTarget (done : Forest Tag) :
    weight (takeTarget done).1 + weight (takeTarget done).2 = weight done := by
  unfold takeTarget
  split
  · rfl
  · rename_i n rest
    split
    · rw [weight_reverse, ← weight_append, List.takeWhile_append_dropWhile]
    · split
      · exact Nat.zero_add _
      · rw [← weight_append]
        rfl

/-- The slot that an edit is taken into, and the siblings before it: the open one, or else one with
the target of the edit. -/
def slotFor (done : Forest Tag) : Option Slot → Slot × Forest Tag
  | some s => (s, done)
  | none => ({ add := (takeTarget done).1 }, (takeTarget done).2)

theorem resolveAmong_edit {slot : Option Slot} (edit : isEdit n = true) :
    resolveAmong done slot (n :: t) = (do
      let next ← (slotFor done slot).1.absorb n
      resolveAmong (slotFor done slot).2 (some next) t) := by
  cases slot <;> simp [resolveAmong, edit, slotFor]

theorem resolveAmong_content {slot : Option Slot} (content : isEdit n = false) :
    resolveAmong done slot (n :: t) =
      resolveAmong (n :: (((slot.map Slot.finish).getD []).reverse ++ done)) none t := by
  cases slot <;> simp [resolveAmong, content]

theorem weight_slotFor (done : Forest Tag) (slot : Option Slot) :
    weight (slotFor done slot).1.finish + weight (slotFor done slot).2 =
      weight done + weight ((slot.map Slot.finish).getD []) := by
  cases slot with
  | none => exact weight_takeTarget done
  | some s => exact Nat.add_comm _ _

theorem slotFor_content (content : isEdit n = false) : (slotFor (n :: done) none).1.finish ≠ [] := by
  by_cases inline : isInline n = true <;>
    simp [slotFor, Slot.finish_eq_nil, takeTarget, inline, content]

theorem resolveAmong_eq {slot : Option Slot} (free : List.any t isEdit = false) :
    resolveAmong done slot t = .ok (done.reverse ++ (slot.map Slot.finish).getD [] ++ t) := by
  induction t generalizing done slot with
  | nil => simp [resolveAmong]
  | cons n rest ih =>
    obtain ⟨content, free⟩ := Bool.or_eq_false_iff.1 free
    simp [resolveAmong_content content, ih free]

/-- Resolving makes siblings no heavier, and lighter if the next edit finds something. -/
theorem weight_resolveAmong {slot : Option Slot} (h : resolveAmong done slot t = .ok out) :
    weight out ≤ weight done + weight ((slot.map Slot.finish).getD []) + weight t ∧
      ((slotFor done slot).1.finish ≠ [] → List.any t isEdit = true →
        weight out < weight done + weight ((slot.map Slot.finish).getD []) + weight t) := by
  induction t generalizing done slot with
  | nil =>
    obtain rfl := Except.ok.inj h
    rw [weight_append, weight_reverse]
    exact ⟨Nat.le_refl _, by simp⟩
  | cons n rest ih =>
    rw [weight_node_cons]
    cases edit : isEdit n with
    | true =>
      rw [resolveAmong_edit edit] at h
      obtain ⟨next, hnext, h⟩ := Except.bind_eq_ok.1 h
      obtain ⟨le, lt⟩ := Slot.weight_absorb hnext
      have taken := weight_slotFor done slot
      have later := (ih h).1
      rw [Option.map_some, Option.getD_some] at later
      refine ⟨by omega, fun filled _ => ?_⟩
      have := lt filled
      omega
    | false =>
      rw [resolveAmong_content edit] at h
      obtain ⟨le, lt⟩ := ih h
      have pushed : weight (n :: (((slot.map Slot.finish).getD []).reverse ++ done)) =
          weight [n] + weight ((slot.map Slot.finish).getD []) + weight done := by
        rw [weight_node_cons, weight_append, weight_reverse, Nat.add_assoc]
      rw [pushed, Option.map_none, Option.getD_none, weight_nil] at le lt
      refine ⟨by omega, fun _ edits => ?_⟩
      have := lt (slotFor_content edit) (by simpa [edit] using edits)
      omega

theorem weight_resolveSiblings (h : resolveSiblings t = .ok v) : weight v ≤ weight t := by
  rw [resolveSiblings] at h
  split at h
  · have resolved := (weight_resolveAmong h).1
    have joined := weight_joinText_le t
    simp only [Option.map_none, Option.getD_none, weight_nil] at resolved
    omega
  · obtain rfl := Except.ok.inj h
    exact Nat.le_refl _

theorem weight_onChildren
    (below : ∀ cs v, f cs = .ok v → weight v ≤ weight cs) (h : onChildren f t = .ok u) :
    weight u ≤ weight t := by
  have pairs := forall₂_onChildren h
  clear h
  induction pairs with
  | nil => exact Nat.le_refl _
  | @cons n m ns ms same rest ih =>
    rcases n with ⟨d, e, cs⟩
    rcases m with ⟨d', e', cs'⟩
    obtain ⟨data, -, inside⟩ := same
    obtain rfl : d' = d := data
    have := below cs cs' inside
    rw [weight_cons, weight_cons]
    omega

theorem weight_resolveWithin {levels : Nat} (h : resolveWithin levels t = .ok u) :
    weight u ≤ weight t := by
  induction levels generalizing t u with
  | zero => simp [resolveWithin] at h
  | succ levels ih =>
    obtain ⟨siblings, hsiblings, h⟩ := Except.bind_eq_ok.1 h
    exact Nat.le_trans (weight_onChildren (fun _ _ => ih) h) (weight_resolveSiblings hsiblings)

/-! ### Resolving what is resolved -/

/-- Siblings with an edit that are as heavy after it is resolved as before hold no other, and it
stands before all of them and is as heavy as what its slot ends in. -/
theorem resolveAmong_of_weight (h : resolveAmong [] none t = .ok v)
    (edits : List.any t isEdit = true) (heavy : weight t ≤ weight v) :
    ∃ n rest half, t = n :: rest ∧ List.any rest isEdit = false ∧ halves n = .ok half ∧
      weight [n] ≤ weight (Slot.finish ⟨half.payload, half.target⟩) ∧
        v = Slot.finish ⟨half.payload, half.target⟩ ++ rest := by
  cases t with
  | nil => simp at edits
  | cons n rest =>
    rw [weight_node_cons] at heavy
    cases edit : isEdit n with
    | true =>
      rw [resolveAmong_edit edit] at h
      obtain ⟨s, hs, h⟩ := Except.bind_eq_ok.1 h
      have taken : weight s.finish ≤ 0 + weight [n] := (Slot.weight_absorb hs).1
      obtain ⟨le, lt⟩ := weight_resolveAmong h
      simp only [slotFor, takeTarget, Option.map_some, Option.getD_some, weight_nil] at le lt
      have kept : weight [n] ≤ weight s.finish := by omega
      have filled : s.finish ≠ [] := by
        have own : weight [n] ≠ 0 := by simp [weight_eq_zero]
        rw [ne_eq, ← weight_eq_zero]
        omega
      have free : List.any rest isEdit = false := by
        rw [Bool.eq_false_iff]
        intro more
        have := lt filled more
        omega
      rw [resolveAmong_eq free] at h
      obtain ⟨half, hhalf, rfl⟩ := Slot.absorb_of_empty rfl hs
      exact ⟨n, rest, half, rfl, free, hhalf, kept, (Except.ok.inj h).symm⟩
    | false =>
      -- the edit further on finds what stands before it
      rw [resolveAmong_content edit] at h
      have lighter := (weight_resolveAmong h).2 (slotFor_content edit)
        (by simpa [edit] using edits)
      simp only [Option.map_none, Option.getD_none, List.reverse_nil, List.append_nil,
        weight_nil] at lighter
      omega

theorem IsNet.isEdit (net : IsNet n) : isEdit n = true := by
  obtain ⟨target, -, rfl | ⟨payload, -, rfl⟩⟩ := net <;> rfl

theorem IsNet.absorb (net : IsNet n) :
    ∃ s, Slot.absorb { add := [] } n = .ok s ∧ s.finish = [n] := by
  obtain ⟨_ | ⟨r, target⟩, removes, rfl | ⟨_ | ⟨p, payload⟩, places, rfl⟩⟩ := net
  · exact absurd rfl removes
  · exact absurd rfl removes
  · exact absurd rfl removes
  · exact ⟨_, rfl, rfl⟩
  · exact absurd rfl places
  · exact ⟨_, rfl, rfl⟩

theorem IsAtRest.resolveSiblings (rest : IsAtRest t) : resolveSiblings t = .ok t := by
  rcases rest with free | ⟨joined, n, rest, rfl, net, free⟩
  · simp [Edit.resolveSiblings, free]
  · obtain ⟨s, hs, ends⟩ := net.absorb
    have first : (slotFor [] none).1.absorb n = .ok s := hs
    rw [Edit.resolveSiblings, if_pos (by simp [net.isEdit]), joined,
      resolveAmong_edit net.isEdit, first]
    exact (resolveAmong_eq free).trans (by simp [ends, slotFor, takeTarget])

theorem onChildren_eq_ok : onChildren f t = .ok u ↔
    List.Forall₂ (fun n m => m.data = n.data ∧ m.extra = n.extra ∧ f n.children = .ok m.children)
      t u := by
  refine ⟨forall₂_onChildren, fun pairs => ?_⟩
  induction pairs with
  | nil => rfl
  | @cons n m ns ms same rest ih =>
    rcases m with ⟨d, e, cs⟩
    obtain ⟨rfl, rfl, inside⟩ := same
    rw [onChildren, ih, inside]
    rfl

theorem onChildren_eq_self : onChildren f t = .ok t ↔ ∀ n ∈ t, f n.children = .ok n.children := by
  rw [onChildren_eq_ok, List.forall₂_same]
  simp

theorem resolveWithin_halves {levels : Nat} {target payload : Forest Tag}
    (h : resolveWithin levels [.branch .replaceMatch target, .branch .replacePayload payload] =
      .ok out) :
    ∃ target' payload',
      out = [.branch .replaceMatch target', .branch .replacePayload payload'] := by
  cases levels with
  | zero => simp [resolveWithin] at h
  | succ levels =>
    obtain ⟨siblings, hsiblings, h⟩ := Except.bind_eq_ok.1 h
    obtain rfl := Except.ok.inj hsiblings
    obtain ⟨later, hlater, h⟩ := Except.bind_eq_ok.1 h
    obtain ⟨target', -, h⟩ := Except.bind_eq_ok.1 h
    obtain ⟨none, hnone, hlater⟩ := Except.bind_eq_ok.1 hlater
    obtain ⟨payload', -, hlater⟩ := Except.bind_eq_ok.1 hlater
    obtain rfl := Except.ok.inj hnone
    obtain rfl := Except.ok.inj hlater
    exact ⟨target', payload', (Except.ok.inj h).symm⟩

theorem target_ne_nil_of_weight (hhalf : halves n = .ok h)
    (heavy : weight [n] ≤ weight (Slot.finish ⟨h.payload, h.target⟩)) : h.target ≠ [] := by
  intro none
  have bound := weight_halves hhalf
  have lighter : weight (Slot.finish ⟨h.payload, h.target⟩) = weight h.payload := by
    rw [none]
    rfl
  split at bound <;> omega

/-- An edit is net if it takes the place of what a slot with a removal ends in that has taken it
in. -/
theorem isNet_of_finish {levels : Nat} {m : Node Tag} (hhalf : halves n = .ok h)
    (removes : h.target ≠ []) (ends : Slot.finish ⟨h.payload, h.target⟩ = [m])
    (data : n.data = m.data) (extra : n.extra = m.extra)
    (kept : resolveWithin levels m.children = .ok n.children) : n = m ∧ IsNet n := by
  rcases n with ⟨d, e, cs⟩
  obtain rfl : d = m.data := data
  obtain rfl : e = m.extra := extra
  rcases h with ⟨_ | ⟨r, target⟩, _ | ⟨p, payload⟩, isRemoval⟩
  · exact absurd rfl removes
  · exact absurd rfl removes
  · obtain rfl := List.singleton_inj.1 ends
    obtain ⟨rfl, -, -⟩ := Halves.mk.inj (Except.ok.inj hhalf)
    exact ⟨rfl, _, removes, .inl rfl⟩
  · obtain rfl := List.singleton_inj.1 ends
    obtain ⟨target', payload', rfl⟩ := resolveWithin_halves kept
    obtain ⟨rfl, rfl, -⟩ := Halves.mk.inj (Except.ok.inj hhalf)
    exact ⟨rfl, _, removes, .inr ⟨_, List.cons_ne_nil _ _, rfl⟩⟩

/-- Siblings that resolving gives back are at rest, and have been so before their children were
resolved. -/
theorem isAtRest_of_weight {levels : Nat} (h : resolveSiblings t = .ok v)
    (heavy : weight t ≤ weight v) (kept : onChildren (resolveWithin levels) v = .ok t) :
    IsAtRest t ∧ v = t := by
  unfold resolveSiblings at h
  split at h
  · rename_i edits
    have resolved := (weight_resolveAmong h).1
    rw [Option.map_none, Option.getD_none, weight_nil] at resolved
    have joined : joinText t = t := joinText_eq_of_weight (by omega)
    rw [joined] at h
    obtain ⟨n, rest, half, rfl, free, hhalf, own, rfl⟩ := resolveAmong_of_weight h edits heavy
    have removes := target_ne_nil_of_weight hhalf own
    obtain ⟨m, ends⟩ := Slot.finish_of_removes half.payload removes
    rw [ends] at kept ⊢
    cases forall₂_onChildren kept with
    | cons same others =>
      obtain ⟨rfl, net⟩ := isNet_of_finish hhalf removes ends same.1 same.2.1 same.2.2
      exact ⟨.inr ⟨joined, n, rest, rfl, net, free⟩, rfl⟩
  · rename_i free
    exact ⟨.inl (by simpa using free), (Except.ok.inj h).symm⟩

end Edit

/-- At each level the siblings are at rest. -/
inductive Forest.IsResolved : Forest Tag → Prop
  | intro {t : Forest Tag} (siblings : Edit.IsAtRest t)
      (below : ∀ n ∈ t, Forest.IsResolved n.children) : Forest.IsResolved t

namespace Edit

variable {t u : Forest Tag} {levels : Nat}

theorem depth_lt_of_resolveWithin (h : resolveWithin levels t = .ok u) :
    Forest.depth u < levels := by
  induction levels generalizing t u with
  | zero => simp [resolveWithin] at h
  | succ levels ih =>
    obtain ⟨siblings, -, below⟩ := Except.bind_eq_ok.1 h
    have pairs := forall₂_onChildren below
    clear h below
    induction pairs with
    | nil => exact Nat.succ_pos _
    | @cons n m ns ms same rest next =>
      have := ih same.2.2
      rcases m with ⟨d, e, cs⟩
      rw [Forest.depth, Node.depth]
      dsimp only at this
      omega

theorem resolveWithin_of_isResolved (resolved : t.IsResolved) (within : Forest.depth t < levels) :
    resolveWithin levels t = .ok t := by
  induction levels generalizing t with
  | zero => omega
  | succ levels ih =>
    obtain ⟨siblings, below⟩ := resolved
    rw [resolveWithin, siblings.resolveSiblings]
    refine onChildren_eq_self.2 fun n hn => ih (below n hn) ?_
    have := depth_lt_of_mem hn
    omega

theorem isResolved_of_resolveWithin (h : resolveWithin levels t = .ok t) : t.IsResolved := by
  induction levels generalizing t with
  | zero => simp [resolveWithin] at h
  | succ levels ih =>
    obtain ⟨siblings, hsiblings, h⟩ := Except.bind_eq_ok.1 h
    have heavy := weight_onChildren (fun _ _ => weight_resolveWithin) h
    obtain ⟨atRest, rfl⟩ := isAtRest_of_weight hsiblings heavy h
    exact .intro atRest fun n hn => ih (onChildren_eq_self.1 h n hn)

end Edit

/-- What comes of resolving edits is left as it is by a second resolving exactly if it is resolved:
at each level no edit stands, or a single net one before all other siblings, and no runs are to be
joined there. -/
theorem Forest.applyEdits_eq_self_iff {t u : Forest Tag} (h : Forest.applyEdits t = .ok u) :
    Forest.applyEdits u = .ok u ↔ u.IsResolved :=
  ⟨Edit.isResolved_of_resolveWithin, fun resolved =>
    Edit.resolveWithin_of_isResolved resolved (Edit.depth_lt_of_resolveWithin h)⟩

/-- A removal of more than the door that it stands behind. -/
def doorBare : Forest Tag :=
  [.branch (.field .description)
    [.leaf (.text "door"), .branch .remove [.leaf (.text "old door")]]]

def oldRemoved : Forest Tag :=
  [.branch (.field .description) [.branch .remove [.leaf (.text "old"), .leaf .space]]]

theorem Forest.applyEdits_eq_self_iff_doorBare :
    Forest.applyEdits doorBare = .ok oldRemoved ∧
      (Forest.applyEdits oldRemoved = .ok oldRemoved ↔ oldRemoved.IsResolved) ∧
        oldRemoved.IsResolved := by
  have resolves : Forest.applyEdits doorBare = .ok oldRemoved := by decide +kernel
  have same := Forest.applyEdits_eq_self_iff resolves
  exact ⟨resolves, same, same.1 (by decide +kernel)⟩

/-- The same removal, with what is shown at night before the door. -/
def doorByNight : Forest Tag :=
  [.branch (.field .description)
    [.branch .conditional [.branch (.onCondition "night") [.leaf (.text "It is dark.")]],
      .leaf (.text "door"), .branch .remove [.leaf (.text "old door")]]]

/-- What is left of a removal may come to stand behind content that it has passed by, and is in
conflict with it when it is resolved again. -/
theorem Forest.applyEdits_twice_doorByNight : ∃ u,
    Forest.applyEdits doorByNight = .ok u ∧
      Forest.applyEdits u = .error (.conflict "It is dark." "old ") := by
  refine ⟨[.branch (.field .description)
    [.branch .conditional [.branch (.onCondition "night") [.leaf (.text "It is dark.")]],
      .branch .remove [.leaf (.text "old"), .leaf .space]]], ?_, ?_⟩ <;> decide +kernel

end WorldMarkup
