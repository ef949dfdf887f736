import WorldMarkup.Proofs.Form.Lifting
import WorldMarkup.Proofs.Form.Marks

/-!
What resolving edits leaves untouched. Where an edit may stand, so may what it holds, and where a
text may stand, so may any other and a space. Main statements: under such a rule what one side of
a comparison goes on with stands where that side stood, and what comes of resolving edits stands
where they stood. It is one such rule that there are no wrappers of inherited content and that
texts hold nothing; what it rules is tidy.
-/

set_option autoImplicit false
set_option relaxedAutoImplicit false

namespace WorldMarkup

variable {σ : Type}

/-- An edit may stand in the scope, and so may what it holds and what comes of it. -/
structure Standing.Edits (R : Standing σ) (scope : σ) : Prop where
  removal : R.allows scope .remove
  replacement : R.allows scope .replace
  matched : R.allows (R.below scope .replace) .replaceMatch
  payload : R.allows (R.below scope .replace) .replacePayload
  removed : R.below scope .remove = scope
  belowMatched : R.below (R.below scope .replace) .replaceMatch = scope
  belowPayload : R.below (R.below scope .replace) .replacePayload = scope

/-- A rule under which edits can be resolved. -/
structure Standing.Editable (R : Standing σ) : Prop extends R.Respects where
  edits : ∀ {scope : σ} {t : Tag}, t.category = .edit → R.allows scope t → R.Edits scope
  texts : ∀ {scope : σ} {value : String}, R.allows scope (.text value) →
    R.allows scope .space ∧ ∀ other, R.allows scope (.text other)
  ends : ∀ {scope : σ} {value : String} {t : Tag}, ¬R.allows (R.below scope (.text value)) t

section

variable {R : Standing σ} {scope : σ} {t u out : Forest Tag}

theorem Standing.Editable.eq_nil (hR : R.Editable) {value : String}
    (h : Forest.Stands R (R.below scope (.text value)) t) : t = [] := by
  rcases t with _ | ⟨⟨d, e, cs⟩, rest⟩
  · rfl
  · exact absurd h.1.1 hR.ends

theorem Forest.Stands.stripInherited (h : Forest.Stands R scope t) :
    Forest.Stands R scope (Forest.stripInherited t) := by
  induction t using Forest.induction generalizing scope with
  | nil => trivial
  | cons d e cs rest hcs hrest => exact ⟨⟨h.1.1, hcs h.1.2⟩, hrest h.2⟩

theorem Forest.Stands.joinTextAfter (hR : R.Editable) (h : Forest.Stands R scope t)
    (held : Option (Node Tag)) (hheld : ∀ n ∈ held, n.Stands R scope) :
    Forest.Stands R scope (Forest.joinTextAfter held t) := by
  have hlist : Forest.Stands R scope held.toList :=
    Forest.stands_iff.2 fun n hn => hheld n (Option.mem_toList.1 hn)
  induction t using Forest.induction generalizing scope held with
  | nil => rwa [Forest.joinTextAfter_nil]
  | cons d e cs rest hcs hrest =>
    obtain ⟨⟨own, below⟩, beside⟩ := h
    cases htext : d.isText with
    | false =>
      have inside := hcs below none (by simp) trivial
      have next : Node.Stands R scope ⟨d, e, Forest.joinTextAfter none cs⟩ := ⟨own, inside⟩
      rw [Forest.joinTextAfter_cons htext, Forest.stands_append]
      exact ⟨hlist, hrest beside _ (by simpa using next) ⟨next, trivial⟩⟩
    | true =>
      obtain ⟨value, rfl⟩ := Tag.eq_text_of_isText htext
      obtain rfl := hR.eq_nil below
      rcases Forest.joinTextAfter_text held value e rest with ⟨-, hjoin⟩ |
        ⟨before, e', cs', rfl, hjoin⟩ | hjoin
      · rw [hjoin]
        exact hrest beside held hheld hlist
      · have next : Node.Stands R scope ⟨.text (before ++ value), e', cs'⟩ := by
          obtain ⟨first, inside⟩ := hheld _ rfl
          obtain rfl := hR.eq_nil inside
          exact ⟨(hR.texts first).2 _, trivial⟩
        rw [hjoin]
        exact hrest beside _ (by simpa using next) ⟨next, trivial⟩
      · have next : Node.Stands R scope ⟨.text value, e, []⟩ := ⟨own, trivial⟩
        rw [hjoin, Forest.stands_append]
        exact ⟨hlist, hrest beside _ (by simpa using next) ⟨next, trivial⟩⟩

theorem Forest.Stands.joinText (hR : R.Editable) (h : Forest.Stands R scope t) :
    Forest.Stands R scope (Forest.joinText t) :=
  h.joinTextAfter hR none (by simp)

end

/-- Paths that stand as they may, and agree on what their numbers stand for. -/
structure Path.AreStanding (R : Standing σ) (scope : σ) (paths : List (Path Tag)) : Prop where
  agree : Path.Agree paths
  stands : ∀ p ∈ paths, Path.Stands R scope p

theorem Path.AreStanding.of_subset {R : Standing σ} {scope : σ} {paths more : List (Path Tag)}
    (h : Path.AreStanding R scope paths) (sub : ∀ p ∈ more, p ∈ paths) :
    Path.AreStanding R scope more where
  agree := by
    apply h.agree.of_steps
    intro s hs
    obtain ⟨p, hp, hsp⟩ := List.mem_flatten.1 hs
    exact ⟨s, List.mem_flatten.2 ⟨p, sub p hp, hsp⟩, rfl, .refl _⟩
  stands p hp := h.stands p (sub p hp)

theorem Forest.Stands.areStanding {R : Standing σ} {scope : σ} {t : Forest Tag}
    (h : Forest.Stands R scope t) (first : Nat) :
    Path.AreStanding R scope (Forest.pathsFrom first t) where
  agree := Forest.agree_pathsFrom first t
  stands _ hp := h.pathsFrom hp

theorem Path.AreStanding.grown {R : Standing σ} {scope : σ} {paths : List (Path Tag)}
    (h : Path.AreStanding R scope paths) (hR : R.Respects) (order : List Category) :
    Forest.Stands R scope
      (Growth.forest (Growth.insertAll (Growth.regrowth order) paths [])) :=
  Growth.stands_insertAll hR h.agree h.stands

/-! ### Comparing -/

namespace Alignment

theorem regrow_eq_ok {paths : List (Path Tag)} {t : Forest Tag} (h : regrow paths = .ok t) :
    t = Growth.forest (Growth.insertAll (Growth.regrowth []) paths []) := by
  rw [regrow, Outline.ofPaths] at h
  split at h
  · rename_i o ho
    split at ho
    · simp at ho
    · rw [← Except.ok.inj h, ← Except.ok.inj ho]
      rfl
  · simp at h

def EndsInText (p : Path Tag) : Prop := ∃ q s, p = q ++ [s] ∧ s.data.isText = true

theorem endsInText_of_overlap? {boundary : Boundary} {a b : Path Tag} {o : Overlap}
    (h : overlap? boundary a b = some o) (longer : o ≠ .same) : EndsInText a ∧ EndsInText b := by
  have ends {p : Path Tag} {value : String}
      (hp : p.getLast?.bind (fun s => s.data.text?) = some value) : EndsInText p := by
    obtain ⟨s, hs, text⟩ := Option.bind_eq_some_iff.1 hp
    exact ⟨p.dropLast, s, (List.dropLast_append_getLast? s hs).symm, by simp [Tag.isText, text]⟩
  unfold overlap? at h
  split at h
  · exact absurd (Option.some.inj h).symm longer
  · split at h
    · split at h
      · rename_i ha hb
        exact ⟨ends ha, ends hb⟩
      · simp at h
    · simp at h

/-- What is left on each side was there, and so was the pair that did not match in length, which
ends in texts. -/
theorem mem_of_matchFront {boundary : Boundary} {as bs : List (Path Tag)} {m : Match}
    (h : matchFront boundary as bs = some m) :
    (∀ p ∈ m.firstRest, p ∈ as) ∧ (∀ p ∈ m.secondRest, p ∈ bs) ∧
      (m.overlap ≠ .same → (m.pair.1 ∈ as ∧ EndsInText m.pair.1) ∧
        m.pair.2 ∈ bs ∧ EndsInText m.pair.2) := by
  induction as generalizing bs with
  | nil =>
    obtain rfl : m = { firstRest := [], secondRest := bs } := by
      cases bs <;> exact (Option.some.inj h).symm
    simp
  | cons a as ih =>
    cases bs with
    | nil =>
      obtain rfl : m = { firstRest := a :: as, secondRest := [] } := (Option.some.inj h).symm
      simp
    | cons b bs =>
      rw [matchFront] at h
      split at h
      · obtain ⟨o, ho, rfl⟩ := Option.map_eq_some_iff.1 h
        refine ⟨fun p hp => by simp [hp], fun p hp => by simp [hp], fun longer => ?_⟩
        obtain ⟨first, second⟩ := endsInText_of_overlap? ho longer
        exact ⟨⟨by simp, first⟩, by simp, second⟩
      · split at h
        · obtain ⟨first, second, pair⟩ := ih h
          refine ⟨fun p hp => by simp [first p hp], fun p hp => by simp [second p hp], ?_⟩
          intro longer
          obtain ⟨⟨h1, text1⟩, h2, text2⟩ := pair longer
          exact ⟨⟨by simp [h1], text1⟩, by simp [h2], text2⟩
        · simp at h

theorem mem_withLeaves {ancestors : Path Tag} {number : Nat} {leaves : List (Tag × Extra)}
    {p : Path Tag} (h : p ∈ withLeaves ancestors number leaves) :
    ∃ i x, leaves[i]? = some x ∧ p = ancestors ++ [⟨x.1, x.2, number + i⟩] := by
  induction leaves generalizing number with
  | nil => simp [withLeaves] at h
  | cons x leaves ih =>
    rcases List.mem_cons.1 h with rfl | h
    · exact ⟨0, x, rfl, rfl⟩
    · obtain ⟨i, y, hy, rfl⟩ := ih h
      exact ⟨i + 1, y, by simpa using hy, by simp [Nat.add_comm, Nat.add_left_comm]⟩

theorem eq_of_mem_excessLeaves {e : Extra} {excess : List Char} {x : Tag × Extra}
    (h : x ∈ excessLeaves e excess) : x.1 = .space ∨ ∃ value, x.1 = .text value := by
  simp only [excessLeaves, List.mem_append, List.mem_ite_nil_right, List.mem_singleton] at h
  rcases h with ⟨-, rfl⟩ | h
  · exact .inl rfl
  · split at h
    · simp at h
    · rcases List.mem_cons.1 h with rfl | h
      · exact .inr ⟨_, rfl⟩
      · simp only [List.mem_ite_nil_right, List.mem_singleton] at h
        exact .inl (by rw [h.2])

theorem lt_freshNumber {side : List (Path Tag)} {s : Step Tag} (hs : s ∈ side.flatten) :
    s.origin < freshNumber side := by
  have bound : ∀ (l : List Nat) (start n : Nat), n ∈ l ∨ n ≤ start → n ≤ l.foldl max start := by
    intro l
    induction l with
    | nil => intro start n h; simpa using h
    | cons m l ih =>
      intro start n h
      rw [List.foldl_cons]
      apply ih
      rcases h with h | h
      · rcases List.mem_cons.1 h with rfl | h
        · exact .inr (Nat.le_max_right _ _)
        · exact .inl h
      · exact .inr (Nat.le_trans h (Nat.le_max_left _ _))
  obtain ⟨p, hp, hsp⟩ := List.mem_flatten.1 hs
  refine bound _ 0 (s.origin + 1) (.inl ?_)
  exact List.mem_flatMap.2 ⟨p, hp, List.mem_map.2 ⟨s, hsp, rfl⟩⟩

section

variable {R : Standing σ} {scope : σ}

/-- The excess of a text may stand beside what is left of its side. -/
theorem areStanding_excess (hR : R.Editable) {side out : List (Path Tag)}
    (h : Path.AreStanding R scope side) {path : Path Tag} (hpath : path ∈ side)
    (text : EndsInText path) {excess : List Char}
    (hout : ∀ p ∈ out, p ∈ excessPaths path excess side ∨ p ∈ side) :
    Path.AreStanding R scope out := by
  obtain ⟨ancestors, leaf, rfl, text⟩ := text
  obtain ⟨value, htext⟩ := Tag.eq_text_of_isText text
  have leaves : ∀ p ∈ excessPaths (ancestors ++ [leaf]) excess side, ∃ i x,
      (excessLeaves leaf.extra excess)[i]? = some x ∧
        p = ancestors ++ [⟨x.1, x.2, freshNumber side + i⟩] := by
    intro p hp
    rw [excessPaths, List.getLast?_concat, List.dropLast_concat] at hp
    exact mem_withLeaves hp
  -- a step of the result comes from the side, or is a leaf with a number of its own
  have steps : ∀ s ∈ out.flatten, s ∈ side.flatten ∨
      ∃ i, s.origin = freshNumber side + i ∧
        (excessLeaves leaf.extra excess)[i]? = some (s.data, s.extra) := by
    intro s hs
    obtain ⟨p, hp, hsp⟩ := List.mem_flatten.1 hs
    rcases hout p hp with hp | hp
    · obtain ⟨i, x, hx, rfl⟩ := leaves p hp
      rcases List.mem_append.1 hsp with hsp | hsp
      · exact .inl (List.mem_flatten.2 ⟨_, hpath, List.mem_append_left _ hsp⟩)
      · obtain rfl := List.mem_singleton.1 hsp
        exact .inr ⟨i, rfl, hx⟩
    · exact .inl (List.mem_flatten.2 ⟨p, hp, hsp⟩)
  constructor
  · intro s hs x hx own
    rcases steps s hs with hs | ⟨i, hi, hleaf⟩ <;> rcases steps x hx with hx | ⟨j, hj, hleaf'⟩
    · exact h.agree s hs x hx own
    · have := lt_freshNumber hs
      omega
    · have := lt_freshNumber hx
      omega
    · obtain rfl : i = j := by omega
      rw [hleaf] at hleaf'
      rw [(Prod.mk.inj (Option.some.inj hleaf')).1]
      exact .refl _
  · intro p hp
    rcases hout p hp with hp | hp
    · obtain ⟨i, x, hx, rfl⟩ := leaves p hp
      obtain ⟨above, own, -⟩ := Path.stands_append.1 (h.stands _ hpath)
      rw [htext] at own
      refine Path.stands_append.2 ⟨above, ?_, trivial⟩
      rcases eq_of_mem_excessLeaves (List.mem_of_getElem? hx) with space | ⟨other, text⟩
      · simpa [space] using (hR.texts own).1
      · simpa [text] using (hR.texts own).2 other
    · exact h.stands p hp

/-- A list of paths as it is matched from the boundary. -/
def toward (boundary : Boundary) (ps : List (Path Tag)) : List (Path Tag) :=
  match boundary with
  | .start => ps
  | .finish => ps.reverse

/-- What a side goes on with: the excess of a text, next to the boundary, and the rest. -/
def joined (boundary : Boundary) (excess rest : List (Path Tag)) : List (Path Tag) :=
  match boundary with
  | .start => excess ++ rest
  | .finish => rest.reverse ++ excess

theorem remainders?_eq (boundary : Boundary) (base edit : List (Path Tag)) :
    remainders? boundary base edit =
      (matchFront boundary (toward boundary base) (toward boundary edit)).map (fun m =>
        match m.overlap with
        | .same => (joined boundary [] m.firstRest, joined boundary [] m.secondRest)
        | .firstLonger x =>
          (joined boundary (excessPaths m.pair.1 x base) m.firstRest,
            joined boundary [] m.secondRest)
        | .secondLonger x =>
          (joined boundary [] m.firstRest,
            joined boundary (excessPaths m.pair.2 x edit) m.secondRest)) := rfl

theorem mem_toward {boundary : Boundary} {ps : List (Path Tag)} {p : Path Tag} :
    p ∈ toward boundary ps ↔ p ∈ ps := by
  cases boundary <;> simp [toward]

theorem mem_joined {boundary : Boundary} {excess rest : List (Path Tag)} {p : Path Tag} :
    p ∈ joined boundary excess rest ↔ p ∈ excess ∨ p ∈ rest := by
  cases boundary <;> simp [joined, or_comm]

/-- What either side goes on with stands where the side stood. -/
theorem areStanding_remainders (hR : R.Editable) {boundary : Boundary}
    {base edit b e : List (Path Tag)} (hbase : Path.AreStanding R scope base)
    (hedit : Path.AreStanding R scope edit) (h : remainders? boundary base edit = some (b, e)) :
    Path.AreStanding R scope b ∧ Path.AreStanding R scope e := by
  rw [remainders?_eq] at h
  obtain ⟨m, hm, h⟩ := Option.map_eq_some_iff.1 h
  obtain ⟨first, second, pair⟩ := mem_of_matchFront hm
  simp only [mem_toward] at first second pair
  have plain {side rest : List (Path Tag)} (hside : Path.AreStanding R scope side)
      (hrest : ∀ p ∈ rest, p ∈ side) : Path.AreStanding R scope (joined boundary [] rest) := by
    apply hside.of_subset
    intro p hp
    rcases mem_joined.1 hp with hp | hp
    · simp at hp
    · exact hrest p hp
  have longer {side rest : List (Path Tag)} (hside : Path.AreStanding R scope side)
      (hrest : ∀ p ∈ rest, p ∈ side) {path : Path Tag} (hpath : path ∈ side ∧ EndsInText path)
      (x : List Char) :
      Path.AreStanding R scope (joined boundary (excessPaths path x side) rest) := by
    apply areStanding_excess hR hside hpath.1 hpath.2
    intro p hp
    exact (mem_joined.1 hp).imp_right (hrest p)
  cases ho : m.overlap with
  | same =>
    rw [ho] at h
    obtain ⟨rfl, rfl⟩ := Prod.mk.inj h
    exact ⟨plain hbase first, plain hedit second⟩
  | firstLonger x =>
    rw [ho] at h
    obtain ⟨rfl, rfl⟩ := Prod.mk.inj h
    exact ⟨longer hbase first (pair (by simp [ho])).1 x, plain hedit second⟩
  | secondLonger x =>
    rw [ho] at h
    obtain ⟨rfl, rfl⟩ := Prod.mk.inj h
    exact ⟨plain hbase first, longer hedit second (pair (by simp [ho])).2 x⟩

theorem stands_of_compareAt? (hR : R.Editable) {boundary : Boundary}
    {base edit : List (Path Tag)} (hbase : Path.AreStanding R scope base)
    (hedit : Path.AreStanding R scope edit) {c : Comparison}
    (h : compareAt? boundary base edit = some (.ok c)) {r : Forest Tag} {at' : Boundary}
    (hr : c = .baseLonger r at' ∨ c = .editLonger r at') : Forest.Stands R scope r := by
  unfold compareAt? at h
  split at h
  · simp at h
  · rename_i b e hrem
    obtain ⟨hb, he⟩ := areStanding_remainders hR hbase hedit hrem
    have grown {paths : List (Path Tag)} (hp : Path.AreStanding R scope paths) {t : Forest Tag}
        (ht : regrow paths = .ok t) : Forest.Stands R scope t := by
      rw [regrow_eq_ok ht]
      exact hp.grown hR.toRespects []
    split at h
    · obtain rfl := Except.ok.inj (Option.some.inj h)
      simp at hr
    · rcases hb' : regrow b with fault | t
      · simp [hb', Except.map] at h
      · obtain rfl : Comparison.baseLonger t boundary = c := by simpa [hb', Except.map] using h
        obtain ⟨rfl, -⟩ : t = r ∧ boundary = at' := by simpa using hr
        exact grown hb hb'
    · rcases he' : regrow e with fault | t
      · simp [he', Except.map] at h
      · obtain rfl : Comparison.editLonger t boundary = c := by simpa [he', Except.map] using h
        obtain ⟨rfl, -⟩ : t = r ∧ boundary = at' := by simpa using hr
        exact grown he he'
    · simp at h

end

end Alignment

section

variable {R : Standing σ} {scope : σ}

theorem stands_of_compareEdits (hR : R.Editable) {base edit : Forest Tag}
    (hbase : Forest.Stands R scope base) (hedit : Forest.Stands R scope edit) {c : Comparison}
    (h : compareEdits base edit = .ok c) {r : Forest Tag} {boundary : Boundary}
    (hr : c = .baseLonger r boundary ∨ c = .editLonger r boundary) :
    Forest.Stands R scope r := by
  unfold compareEdits at h
  obtain ⟨b, hb, h⟩ := Except.bind_eq_ok.1 h
  obtain ⟨e, he, h⟩ := Except.bind_eq_ok.1 h
  obtain ⟨-, rfl⟩ := Forest.worldPaths_eq hb
  obtain ⟨-, rfl⟩ := Forest.worldPaths_eq he
  have baseStands : Path.AreStanding R scope (Forest.paths base) := hbase.areStanding 0
  have editStands : Path.AreStanding R scope (Forest.paths edit) := hedit.areStanding 0
  rcases hstart : Alignment.compareAt? .start (Forest.paths base) (Forest.paths edit) with _ | x
  · rcases hfinish : Alignment.compareAt? .finish (Forest.paths base) (Forest.paths edit) with
      _ | y
    · obtain rfl : Comparison.conflict = c := by simpa [hstart, hfinish] using h
      simp at hr
    · obtain rfl : y = .ok c := by simpa [hstart, hfinish] using h
      exact Alignment.stands_of_compareAt? hR baseStands editStands hfinish hr
  · obtain rfl : x = .ok c := by simpa [hstart] using h
    exact Alignment.stands_of_compareAt? hR baseStands editStands hstart hr

/-! ### Resolving -/

namespace Edit

theorem stands_of_replaceHalves (edits : R.Edits scope) {target payload : Option (Forest Tag)}
    {t : Forest Tag} {h : Halves} (htarget : ∀ x ∈ target, Forest.Stands R scope x)
    (hpayload : ∀ x ∈ payload, Forest.Stands R scope x)
    (stands : Forest.Stands R (R.below scope .replace) t)
    (hh : replaceHalves target payload t = .ok h) :
    Forest.Stands R scope h.target ∧ Forest.Stands R scope h.payload := by
  induction t generalizing target payload with
  | nil =>
    unfold replaceHalves at hh
    split at hh
    · rename_i x
      obtain rfl := Except.ok.inj hh
      refine ⟨htarget x rfl, ?_⟩
      cases payload with
      | none => trivial
      | some y => exact hpayload y rfl
    · simp at hh
  | cons half rest ih =>
    obtain ⟨d, e, cs⟩ := half
    obtain ⟨⟨-, below⟩, beside⟩ := stands
    unfold replaceHalves at hh
    split at hh
    · rename_i hd
      obtain rfl : d = .replaceMatch := hd
      rw [edits.belowMatched] at below
      exact ih (by simpa using below) hpayload beside hh
    · rename_i hd
      obtain rfl : d = .replacePayload := hd
      rw [edits.belowPayload] at below
      exact ih htarget (by simpa using below) beside hh
    · simp at hh

theorem stands_of_halves (edits : R.Edits scope) {n : Node Tag} (isEdit : isEdit n = true)
    {h : Halves} (stands : n.Stands R scope) (hh : halves n = .ok h) :
    Forest.Stands R scope h.target ∧ Forest.Stands R scope h.payload := by
  obtain ⟨d, e, cs⟩ := n
  obtain ⟨-, below⟩ := stands
  unfold halves at hh
  split at hh
  · rename_i hd
    obtain rfl : d = .replace := hd
    exact stands_of_replaceHalves edits (by simp) (by simp) below hh
  · rename_i hd
    obtain rfl : d = .remove := by
      cases d <;> simp_all [Edit.isEdit, Tag.category]
    obtain rfl := Except.ok.inj hh
    rw [edits.removed] at below
    exact ⟨below, trivial⟩

/-- What stands in a slot and what is to be removed may stand in the scope. -/
structure Slot.Stands (R : Standing σ) (scope : σ) (s : Slot) : Prop where
  add : Forest.Stands R scope s.add
  remove : Forest.Stands R scope s.remove

theorem Slot.mem_withoutFirstSpace {t : Forest Tag} {n : Node Tag}
    (h : n ∈ withoutFirstSpace t) : n ∈ t := by
  cases t with
  | nil => exact h
  | cons m rest =>
    rw [withoutFirstSpace] at h
    split at h
    · exact List.mem_cons_of_mem _ h
    · exact h

theorem Slot.mem_withoutLastSpace {t : Forest Tag} {n : Node Tag}
    (h : n ∈ withoutLastSpace t) : n ∈ t := by
  unfold withoutLastSpace at h
  split at h
  · exact (List.dropLast_sublist t).subset h
  · exact h

theorem Slot.Stands.absorb (hR : R.Editable) (edits : R.Edits scope) {s out : Slot}
    (hs : s.Stands R scope) {edit : Node Tag} (isEdit : isEdit edit = true)
    (stands : edit.Stands R scope) (h : s.absorb edit = .ok out) : out.Stands R scope := by
  unfold Slot.absorb at h
  obtain ⟨half, hhalf, h⟩ := Except.bind_eq_ok.1 h
  obtain ⟨htarget, hpayload⟩ := stands_of_halves edits isEdit stands hhalf
  split at h
  · obtain rfl := Except.ok.inj h
    exact ⟨hpayload, Forest.stands_append.2 ⟨hs.remove, htarget⟩⟩
  · obtain ⟨c, hc, h⟩ := Except.bind_eq_ok.1 h
    have rest {r : Forest Tag} {boundary : Boundary}
        (hr : c = .baseLonger r boundary ∨ c = .editLonger r boundary) :
        Forest.Stands R scope r := stands_of_compareEdits hR hs.add htarget hc hr
    split at h
    · obtain rfl := Except.ok.inj h
      exact ⟨hpayload, hs.remove⟩
    · rename_i r
      obtain rfl := Except.ok.inj h
      refine ⟨Forest.stands_append.2 ⟨hpayload, ?_⟩, hs.remove⟩
      have restStands := rest (.inl rfl)
      split
      · exact restStands.of_subset (fun n hn => Slot.mem_withoutFirstSpace hn)
      · exact restStands
    · rename_i r
      obtain rfl := Except.ok.inj h
      refine ⟨Forest.stands_append.2 ⟨?_, hpayload⟩, hs.remove⟩
      have restStands := rest (.inl rfl)
      split
      · exact restStands.of_subset (fun n hn => Slot.mem_withoutLastSpace hn)
      · exact restStands
    · rename_i r boundary
      obtain rfl := Except.ok.inj h
      exact ⟨hpayload, Forest.stands_append.2 ⟨hs.remove, rest (.inr rfl)⟩⟩
    · simp [throw, throwThe, MonadExceptOf.throw] at h

theorem Slot.Stands.finish (edits : R.Edits scope) {s : Slot} (hs : s.Stands R scope) :
    Forest.Stands R scope s.finish := by
  unfold Slot.finish
  split
  · exact hs.add
  · exact ⟨⟨edits.removal, by rw [edits.removed]; exact hs.remove⟩, trivial⟩
  · exact ⟨⟨edits.replacement, ⟨edits.matched, by rw [edits.belowMatched]; exact hs.remove⟩,
      ⟨edits.payload, by rw [edits.belowPayload]; exact hs.add⟩, trivial⟩, trivial⟩

theorem stands_takeTarget {before : Forest Tag} (h : Forest.Stands R scope before) :
    Forest.Stands R scope (takeTarget before).1 ∧
      Forest.Stands R scope (takeTarget before).2 := by
  unfold takeTarget
  split
  · exact ⟨trivial, trivial⟩
  · rename_i n rest
    split
    · constructor
      · apply h.of_subset
        intro m hm
        exact (List.takeWhile_sublist _).subset (List.mem_reverse.1 hm)
      · exact h.of_subset (fun m hm => (List.dropWhile_sublist _).subset hm)
    · split
      · exact ⟨trivial, h⟩
      · exact ⟨⟨h.1, trivial⟩, h.2⟩

theorem stands_resolveAmong (hR : R.Editable) (edits : R.Edits scope) {t out done : Forest Tag}
    {slot : Option Slot} (hdone : Forest.Stands R scope done)
    (hslot : ∀ s ∈ slot, s.Stands R scope) (ht : Forest.Stands R scope t)
    (h : resolveAmong done slot t = .ok out) : Forest.Stands R scope out := by
  induction t generalizing done slot with
  | nil =>
    obtain rfl := Except.ok.inj h
    refine Forest.stands_append.2 ⟨hdone.of_subset (by simp), ?_⟩
    cases slot with
    | none => trivial
    | some s => exact (hslot s rfl).finish edits
  | cons n rest ih =>
    obtain ⟨own, beside⟩ := ht
    unfold resolveAmong at h
    split at h
    · rename_i isEdit
      split at h
      · rename_i s
        obtain ⟨next, hnext, h⟩ := Except.bind_eq_ok.1 h
        exact ih hdone (by simpa using (hslot s rfl).absorb hR edits isEdit own hnext) beside h
      · obtain ⟨target, before⟩ := stands_takeTarget hdone
        obtain ⟨next, hnext, h⟩ := Except.bind_eq_ok.1 h
        have opened : Slot.Stands R scope { add := (takeTarget done).1 } := ⟨target, trivial⟩
        exact ih before (by simpa using opened.absorb hR edits isEdit own hnext) beside h
    · split at h
      · rename_i s
        refine ih ?_ (by simp) beside h
        have closed : Forest.Stands R scope s.finish.reverse :=
          ((hslot s rfl).finish edits).of_subset (by simp)
        exact ⟨own, Forest.stands_append.2 ⟨closed, hdone⟩⟩
      · have grown : Forest.Stands R scope (n :: done) := ⟨own, hdone⟩
        exact ih grown (by simp) beside h

theorem stands_resolveSiblings (hR : R.Editable) {t out : Forest Tag}
    (ht : Forest.Stands R scope t) (h : resolveSiblings t = .ok out) :
    Forest.Stands R scope out := by
  unfold resolveSiblings at h
  split at h
  · rename_i found
    obtain ⟨n, hn, isEdit⟩ := List.any_eq_true.1 found
    have own := Forest.stands_iff.1 ht n hn
    obtain ⟨d, e, cs⟩ := n
    have edits : R.Edits scope := hR.edits (by simpa [Edit.isEdit] using isEdit) own.1
    have start : Forest.Stands R scope [] := trivial
    exact stands_resolveAmong hR edits start (by simp) (ht.joinText hR) h
  · obtain rfl := Except.ok.inj h
    exact ht

theorem forall₂_onChildren {f : Forest Tag → Except FormError (Forest Tag)} {t out : Forest Tag}
    (h : onChildren f t = .ok out) :
    List.Forall₂ (fun n m => m.data = n.data ∧ m.extra = n.extra ∧ f n.children = .ok m.children)
      t out := by
  induction t generalizing out with
  | nil =>
    obtain rfl := Except.ok.inj h
    exact .nil
  | cons n rest ih =>
    rw [onChildren] at h
    obtain ⟨later, hlater, h⟩ := Except.bind_eq_ok.1 h
    obtain ⟨children, hchildren, h⟩ := Except.bind_eq_ok.1 h
    obtain rfl := Except.ok.inj h
    exact .cons ⟨rfl, rfl, hchildren⟩ (ih hlater)

theorem stands_resolveWithin (hR : R.Editable) {levels : Nat} {t out : Forest Tag}
    (ht : Forest.Stands R scope t) (h : resolveWithin levels t = .ok out) :
    Forest.Stands R scope out := by
  induction levels generalizing t out scope with
  | zero => simp [resolveWithin] at h
  | succ levels ih =>
    rw [resolveWithin] at h
    obtain ⟨siblings, hsiblings, hchildren⟩ := Except.bind_eq_ok.1 h
    have stands := stands_resolveSiblings hR ht hsiblings
    have pairs := forall₂_onChildren hchildren
    clear h hsiblings hchildren ht
    induction pairs with
    | nil => trivial
    | @cons n m ns ms same rest next =>
      obtain ⟨own, beside⟩ := stands
      obtain ⟨hdata, -, hchildren⟩ := same
      refine ⟨?_, next beside⟩
      rcases n with ⟨d, e, cs⟩
      rcases m with ⟨d', e', cs'⟩
      obtain rfl : d' = d := hdata
      exact ⟨own.1, ih own.2 hchildren⟩

end Edit

theorem Forest.Stands.applyEdits (hR : R.Editable) {t out : Forest Tag}
    (ht : Forest.Stands R scope t) (h : Forest.applyEdits t = .ok out) :
    Forest.Stands R scope out :=
  Edit.stands_resolveWithin hR ht h

theorem Forest.Stands.settleField (hR : R.Editable) {f g : ComponentField}
    (hf : Forest.Stands R scope [f.node]) (h : Standardize.settleField f = .ok g) :
    Forest.Stands R scope [g.node] := by
  rw [Standardize.settleField] at h
  obtain ⟨resolved, hresolved, h⟩ := Except.bind_eq_ok.1 h
  have joined := (hf.applyEdits hR hresolved).joinText hR
  obtain rfl := Except.ok.inj h
  split
  · rename_i n last
    have own : Forest.Stands R scope [n] :=
      joined.of_subset (fun m hm => List.mem_singleton.1 hm ▸ List.mem_of_getLast? last)
    exact own.stripInherited
  · exact hf

end

theorem Forest.applyEdits_singleton {n : Node Tag} (root : Edit.isEdit n = false)
    {out : Forest Tag} (h : Forest.applyEdits [n] = .ok out) :
    ∃ cs, out = [{ n with children := cs }] := by
  rw [Forest.applyEdits, Edit.resolveWithin] at h
  obtain ⟨siblings, hsiblings, h⟩ := Except.bind_eq_ok.1 h
  obtain rfl : siblings = [n] := by
    simpa [Edit.resolveSiblings, root, eq_comm] using hsiblings
  rw [Edit.onChildren, Edit.onChildren] at h
  obtain ⟨later, hlater, h⟩ := Except.bind_eq_ok.1 h
  obtain ⟨children, -, h⟩ := Except.bind_eq_ok.1 h
  obtain rfl := Except.ok.inj hlater
  exact ⟨children, (Except.ok.inj h).symm⟩

/-! ### Tidy forests -/

/-- No wrapper of inherited content, and nothing below a text: the scope tells whether a text is
right above. -/
def Tag.standsTidily : Standing Bool where
  allows belowText t := t ≠ .inherited ∧ belowText = false
  below _ t := t.isText

theorem Tag.editable_standsTidily : Tag.standsTidily.Editable where
  toRespects := Standing.respects_of_eq fun kin => kin.isText_eq
  edits := by
    rintro belowText t - ⟨-, rfl⟩
    exact ⟨⟨by simp, rfl⟩, ⟨by simp, rfl⟩, ⟨by simp, rfl⟩, ⟨by simp, rfl⟩, rfl, rfl, rfl⟩
  texts h := ⟨⟨by simp, h.2⟩, fun _ => ⟨by simp, h.2⟩⟩
  ends h := by simpa [standsTidily, isText, text?] using h.2

def Node.IsTidy (n : Node Tag) : Prop := n.Stands Tag.standsTidily false

/-- No wrappers of inherited content, and texts hold nothing. -/
def Forest.IsTidy (t : Forest Tag) : Prop := Forest.Stands Tag.standsTidily false t

namespace Forest

variable {t u out : Forest Tag}

theorem isTidy_nil : IsTidy [] := trivial

theorem isTidy_iff : IsTidy t ↔ ∀ n ∈ t, n.IsTidy := stands_iff

theorem isTidy_cons {n : Node Tag} : IsTidy (n :: t) ↔ n.IsTidy ∧ IsTidy t := Iff.rfl

theorem isTidy_append : IsTidy (t ++ u) ↔ IsTidy t ∧ IsTidy u := stands_append

theorem stands_belowText_iff {belowText : Bool} :
    Forest.Stands Tag.standsTidily belowText t ↔ (belowText = true → t = []) ∧ IsTidy t := by
  cases belowText with
  | false => simp [IsTidy]
  | true =>
    rcases t with _ | ⟨⟨d, e, cs⟩, rest⟩
    · simp [Forest.Stands, IsTidy]
    · simp [Forest.Stands, Node.Stands, Tag.standsTidily]

end Forest

theorem Node.isTidy_mk {d : Tag} {e : Extra} {cs : Forest Tag} :
    Node.IsTidy ⟨d, e, cs⟩ ↔
      d ≠ .inherited ∧ (d.isText = true → cs = []) ∧ Forest.IsTidy cs := by
  rw [Node.IsTidy, Node.Stands, Forest.stands_belowText_iff]
  simp [Tag.standsTidily]

theorem Node.IsTidy.children {n : Node Tag} (h : n.IsTidy) : Forest.IsTidy n.children := by
  cases n
  exact (Node.isTidy_mk.1 h).2.2

namespace Forest

variable {t out : Forest Tag}

theorem IsTidy.textsEnd (h : IsTidy t) : TextsEnd t := by
  induction t using Forest.induction with
  | nil => trivial
  | cons d e cs rest hcs hrest =>
    obtain ⟨own, beside⟩ := isTidy_cons.1 h
    obtain ⟨-, texts, below⟩ := Node.isTidy_mk.1 own
    exact ⟨⟨texts, hcs below⟩, hrest beside⟩

theorem isTidy_joinText (h : IsTidy t) : IsTidy (Forest.joinText t) :=
  Stands.joinText Tag.editable_standsTidily h

theorem isTidy_stripInherited (h : IsTidy t) : IsTidy (Forest.stripInherited t) :=
  Stands.stripInherited h

theorem isTidy_applyEdits (ht : IsTidy t) (h : Forest.applyEdits t = .ok out) : IsTidy out :=
  Stands.applyEdits Tag.editable_standsTidily ht h

end Forest

theorem Path.stands_tidily {p : Path Tag} :
    Path.Stands Tag.standsTidily false p ↔
      (∀ s ∈ p, s.data ≠ .inherited) ∧ ∀ s ∈ p.dropLast, s.data.isText = false := by
  have below {belowText : Bool} {p : Path Tag} :
      Path.Stands Tag.standsTidily belowText p ↔
        (p ≠ [] → belowText = false) ∧ (∀ s ∈ p, s.data ≠ .inherited) ∧
          ∀ s ∈ p.dropLast, s.data.isText = false := by
    induction p generalizing belowText with
    | nil => simp [Path.Stands]
    | cons s rest ih =>
      rw [Path.Stands, ih]
      cases rest with
      | nil => simp [Tag.standsTidily, and_comm]
      | cons x rest =>
        simp only [Tag.standsTidily, List.dropLast_cons_cons, List.forall_mem_cons, ne_eq,
          reduceCtorEq, not_false_eq_true, forall_const]
        tauto
  rw [below]
  simp

theorem Path.isTidy_grown {paths : List (Path Tag)} (agree : Path.Agree paths)
    (lifted : ∀ s ∈ paths.flatten, s.data ≠ .inherited)
    (texts : ∀ p ∈ paths, ∀ s ∈ p.dropLast, s.data.isText = false) (order : List Category) :
    Forest.IsTidy (Growth.forest (Growth.insertAll (Growth.regrowth order) paths [])) := by
  apply Growth.stands_insertAll Tag.editable_standsTidily.toRespects agree
  intro p hp
  refine Path.stands_tidily.2 ⟨fun s hs => lifted s ?_, texts p hp⟩
  exact List.mem_flatten.2 ⟨p, hp, hs⟩

end WorldMarkup
