import WorldMarkup.Proofs.Edit.Reading
import WorldMarkup.Proofs.Edit.Repeating
import WorldMarkup.Proofs.Form.Joined

/-!
Edits that name how the running content before them starts. The content is matched from the start,
and what it goes on with grows back from its paths as it was. Main statement: a replacement puts its
payload in the place of what it names, a removal takes that off together with the space behind it,
and all else stays as it is.
-/

set_option autoImplicit false
set_option relaxedAutoImplicit false

namespace WorldMarkup

/-! ### Running content -/

theorem Node.isInline_of_isProse {n : Node Tag} (prose : n.isProse = true) :
    Edit.isInline n = true := by
  rcases n with ⟨d, e, cs⟩
  cases d <;> first | rfl | simp [Node.isProse] at prose

namespace Forest

variable {t u : Forest Tag}

theorem isEditFree_append : IsEditFree (t ++ u) ↔ IsEditFree t ∧ IsEditFree u := by
  induction t with
  | nil => simp [IsEditFree, preorder]
  | cons n t ih =>
    rcases n with ⟨d, e, cs⟩
    rw [List.cons_append, isEditFree_cons, isEditFree_cons, ih]
    tauto

theorem depth_append : depth (t ++ u) = max (depth t) (depth u) := by
  induction t with
  | nil => simp [depth]
  | cons n t ih => rw [List.cons_append, depth, depth, ih, Nat.max_assoc]

theorem textsEnd_append : TextsEnd (t ++ u) ↔ TextsEnd t ∧ TextsEnd u := by
  induction t with
  | nil => simp [TextsEnd]
  | cons n t ih => rw [List.cons_append, TextsEnd, TextsEnd, ih, and_assoc]

theorem any_isEdit_of_isEditFree (free : IsEditFree t) : List.any t Edit.isEdit = false :=
  List.any_eq_false.2 fun _ hn => by simp [(Edit.isEditFree_children free hn).2]

theorem IsEditFree.isResolved (free : IsEditFree t) : IsResolved t := by
  refine .intro (.inl (any_isEdit_of_isEditFree free)) ?_
  induction t using Forest.induction with
  | nil => simp
  | cons d e cs rest hcs hrest =>
    obtain ⟨-, inside, beside⟩ := isEditFree_cons.1 free
    refine List.forall_mem_cons.2 ⟨?_, hrest beside⟩
    exact .intro (.inl (any_isEdit_of_isEditFree inside)) (hcs inside)

/-- Content that resolving edits does not change wherever it stands: no edits in it, no texts that
hold anything, and no more levels than are allowed. -/
structure IsStill (t : Forest Tag) : Prop where
  free : IsEditFree t
  ends : TextsEnd t
  shallow : depth t ≤ maxDepth

theorem IsStill.append (ht : IsStill t) (hu : IsStill u) : IsStill (t ++ u) where
  free := isEditFree_append.2 ⟨ht.free, hu.free⟩
  ends := textsEnd_append.2 ⟨ht.ends, hu.ends⟩
  shallow := by
    rw [depth_append]
    exact Nat.max_le.2 ⟨ht.shallow, hu.shallow⟩

theorem onChildren_of_isStill (still : IsStill t) :
    Edit.onChildren (Edit.resolveWithin maxDepth) t = .ok t := by
  refine Edit.onChildren_eq_self.2 fun n hn => ?_
  apply Edit.resolveWithin_of_isResolved
  · exact (Edit.isEditFree_children still.free hn).1.isResolved
  · exact Nat.lt_of_lt_of_le (Edit.depth_lt_of_mem hn) still.shallow

theorem depth_of_plainTexts (texts : t.all Node.isPlainText = true) :
    IsEditFree t ∧ TextsEnd t ∧ depth t ≤ 1 := by
  induction t with
  | nil => simp [IsEditFree, preorder, TextsEnd, depth]
  | cons n t ih =>
    rcases n with ⟨d, e, cs⟩
    obtain ⟨own, others⟩ := Bool.and_eq_true_iff.1 texts
    obtain ⟨text, leaf⟩ := Bool.and_eq_true_iff.1 own
    obtain ⟨value, rfl⟩ := Tag.eq_text_of_isText text
    obtain rfl : cs = [] := List.isEmpty_iff.1 leaf
    obtain ⟨free, ends, shallow⟩ := ih others
    refine ⟨isEditFree_cons.2 ⟨by simp, by simp [IsEditFree, preorder], free⟩,
      ⟨by simp [Node.TextsEnd, TextsEnd], ends⟩, ?_⟩
    rw [depth, Node.depth, depth]
    omega

theorem IsProse.isStill (prose : IsProse t) : IsStill t := by
  suffices h : IsEditFree t ∧ TextsEnd t ∧ depth t ≤ 2 by
    obtain ⟨free, ends, shallow⟩ := h
    exact ⟨free, ends, Nat.le_trans shallow (by decide)⟩
  induction t with
  | nil => simp [IsEditFree, preorder, TextsEnd, depth]
  | cons n t ih =>
    obtain ⟨own, others⟩ := List.forall_mem_cons.1 prose
    obtain ⟨free, ends, shallow⟩ := ih others
    rcases n with ⟨d, e, cs⟩
    have inside : (d ≠ .remove ∧ d ≠ .replace) ∧ (d.isText = true → cs = []) ∧
        cs.all Node.isPlainText = true := by
      cases d <;> simp_all [Node.isProse, Node.isLeaf, Tag.isText, Tag.text?]
    obtain ⟨content, leaf, texts⟩ := inside
    obtain ⟨freeInside, endsInside, shallowInside⟩ := depth_of_plainTexts texts
    refine ⟨isEditFree_cons.2 ⟨content, freeInside, free⟩, ⟨⟨leaf, endsInside⟩, ends⟩, ?_⟩
    rw [depth, Node.depth]
    omega

end Forest

/-! ### Matching from the start -/

namespace Alignment

variable {boundary : Boundary} {first rest : List (Path Tag)}

theorem matchFront_append (filled : first ≠ []) :
    ∃ pair, matchFront boundary (first ++ rest) first = some ⟨.same, pair, rest, []⟩ := by
  induction first with
  | nil => exact absurd rfl filled
  | cons p first ih =>
    have same : samePath p p = true := samePath_eq_true.2 rfl
    cases first with
    | nil => exact ⟨(p, p), by simp [matchFront, overlap?, same]⟩
    | cons q first =>
      obtain ⟨pair, hpair⟩ := ih (List.cons_ne_nil _ _)
      refine ⟨pair, ?_⟩
      rw [List.cons_append, matchFront, if_neg (by simp), if_pos same, hpair]

theorem remainders?_append (filled : first ≠ []) :
    remainders? .start (first ++ rest) first = some (rest, []) := by
  obtain ⟨pair, matched⟩ : ∃ pair, matchFront .start (first ++ rest) first =
    some ⟨.same, pair, rest, []⟩ := matchFront_append filled
  rw [remainders?_eq]
  simp [toward, joined, matched]

theorem regrow_pathsFrom {t : Forest Tag} (prose : t.IsProse) (number : Nat) :
    regrow (Forest.pathsFrom number t) = .ok t := by
  have own : Path.AreProse (Forest.pathsFrom number t) := fun p hp => prose.paths hp
  have routes := Forest.routes_numbered number t
  obtain ⟨u, grown⟩ := exists_regrow own
  have settled : Forest.SettledAfter worldRules [] (Growth.forest (Forest.numbered number t)) := by
    refine Forest.settled_of_inline (fun p hp => ?_) []
    rw [routes] at hp
    exact (own p hp).1.inline
  have once (k : Nat) : Forest.total (Forest.bears k) (Forest.numbered number t) ≤ 1 := by
    rw [Forest.total_bears_numbered]
    split <;> omega
  have whole : Growth.insertAll (Growth.regrowth []) (Forest.routes (Forest.numbered number t)) [] =
      [] ++ Forest.numbered number t :=
    Growth.insertAll_routes Step.settle_self rfl settled once
  rw [grown, regrow_eq_ok grown, ← routes, whole, List.nil_append, Forest.forest_numbered]

end Alignment

open WorldMarkup.Alignment

/-- Running content compares with how it starts: it goes on with the rest. -/
theorem compareEdits_append {p r : Forest Tag} (target : p.IsProse) (beyond : r.IsProse)
    (filled : p ≠ []) :
    compareEdits (p ++ r) p = .ok (if r = [] then .equal else .baseLonger r .start) := by
  have whole : (p ++ r).IsProse := fun n hn =>
    (List.mem_append.1 hn).elim (target n) (beyond n)
  have named : Forest.paths p ≠ [] := Forest.pathsFrom_ne_nil filled 0
  have paths : Forest.paths (p ++ r) =
      Forest.paths p ++ Forest.pathsFrom (0 + Forest.size p) r := Forest.pathsFrom_append 0 p r
  refine compareEdits_eq_ok.2 ⟨_, _, whole.worldPaths, target.worldPaths, ?_⟩
  have start : compareAt? .start (Forest.paths (p ++ r)) (Forest.paths p) =
      some (.ok (if r = [] then .equal else .baseLonger r .start)) := by
    refine compareAt?_eq_ok.2 ⟨Forest.pathsFrom (0 + Forest.size p) r, [], ?_, ?_⟩
    · rw [paths]
      exact remainders?_append named
    · by_cases none : r = []
      · subst none
        exact .inl ⟨rfl, rfl, rfl⟩
      · refine .inr (.inl ⟨Forest.pathsFrom_ne_nil none _, rfl, r, ?_, if_neg none⟩)
        exact regrow_pathsFrom beyond _
  rw [start]
  rfl

/-! ### Resolving the edit -/

namespace Edit

open Forest

variable {t pre p r q post done : Forest Tag} {n : Node Tag} {isRemoval : Bool}

/-- What an edit leaves of the content that follows what it names. -/
def afterwards (isRemoval : Bool) (r : Forest Tag) : Forest Tag :=
  if isRemoval then Slot.withoutFirstSpace r else r

theorem afterwards_nil (isRemoval : Bool) : afterwards isRemoval [] = [] := by
  cases isRemoval <;> rfl

theorem isProse_afterwards (prose : r.IsProse) : (afterwards isRemoval r).IsProse := by
  intro n hn
  rw [afterwards] at hn
  split at hn
  · exact prose n (Slot.mem_withoutFirstSpace hn)
  · exact prose n hn

theorem Slot.absorb_append (target : p.IsProse) (beyond : r.IsProse) (filled : p ≠ [])
    (named : halves n = .ok ⟨p, q, isRemoval⟩) :
    Slot.absorb { add := p ++ r } n = .ok { add := q ++ afterwards isRemoval r } := by
  rw [absorb]
  refine Except.bind_eq_ok.2 ⟨_, named, ?_⟩
  rw [if_neg (by simp [filled])]
  refine Except.bind_eq_ok.2 ⟨_, compareEdits_append target beyond filled, ?_⟩
  by_cases none : r = []
  · subst none
    rw [if_pos rfl, afterwards_nil, List.append_nil, List.append_nil]
    rfl
  · rw [if_neg none]
    rfl

theorem resolveAmong_append (free : List.any pre isEdit = false) (t : Forest Tag) :
    resolveAmong done none (pre ++ t) = resolveAmong (pre.reverse ++ done) none t := by
  induction pre generalizing done with
  | nil => rfl
  | cons n pre ih =>
    obtain ⟨content, free⟩ := Bool.or_eq_false_iff.1 free
    rw [List.cons_append, resolveAmong_content content, ih free]
    simp

theorem takeTarget_append (inline : ∀ n ∈ t, isInline n = true) (filled : t ≠ [])
    (apart : ∀ n ∈ pre.getLast?, isInline n = false) :
    takeTarget (pre ++ t).reverse = (t, pre.reverse) := by
  have inline' : ∀ n ∈ t.reverse, isInline n = true := fun n hn => inline n (List.mem_reverse.1 hn)
  have stops : pre.reverse.takeWhile isInline = [] ∧
      pre.reverse.dropWhile isInline = pre.reverse := by
    rcases List.eq_nil_or_concat pre with rfl | ⟨before, n, rfl⟩
    · exact ⟨rfl, rfl⟩
    · have content : isInline n = false := apart n (by simp)
      simp [content]
  obtain ⟨n, rest, turned⟩ : ∃ n rest, t.reverse = n :: rest :=
    List.exists_cons_of_ne_nil (by simpa using filled)
  have last : isInline n = true := inline' n (by simp [turned])
  rw [List.reverse_append, turned, List.cons_append, takeTarget, if_pos last, ← List.cons_append,
    ← turned, List.takeWhile_append_of_pos inline', List.dropWhile_append_of_pos inline', stops.1,
    stops.2, List.append_nil, List.reverse_reverse]

/-- An edit that names how the running content before it starts, among siblings whose runs are
joined. -/
theorem resolveSiblings_append (target : p.IsProse) (beyond : r.IsProse) (filled : p ≠ [])
    (edit : isEdit n = true) (named : halves n = .ok ⟨p, q, isRemoval⟩)
    (free : List.any pre isEdit = false) (free' : List.any post isEdit = false)
    (apart : ∀ n ∈ pre.getLast?, isInline n = false)
    (joined : Forest.joinText (pre ++ p ++ r ++ n :: post) = pre ++ p ++ r ++ n :: post) :
    resolveSiblings (pre ++ p ++ r ++ n :: post) =
      .ok (pre ++ (q ++ afterwards isRemoval r) ++ post) := by
  have prose : (p ++ r).IsProse := fun n hn => (List.mem_append.1 hn).elim (target n) (beyond n)
  have content : List.any (pre ++ p ++ r) isEdit = false := by
    rw [List.append_assoc, List.any_append, free, any_isEdit_of_isEditFree prose.isStill.free,
      Bool.or_self]
  have taken : takeTarget (pre ++ p ++ r).reverse = (p ++ r, pre.reverse) := by
    rw [List.append_assoc]
    exact takeTarget_append (fun n hn => Node.isInline_of_isProse (prose n hn))
      (by simp [filled]) apart
  rw [resolveSiblings, if_pos (by simp [edit]), joined, resolveAmong_append content,
    List.append_nil, resolveAmong_edit edit]
  simp only [slotFor, taken, Slot.absorb_append target beyond filled named]
  change resolveAmong _ _ _ = _
  rw [resolveAmong_eq free']
  simp [Slot.finish]

end Edit

namespace Forest

open WorldMarkup.Edit

theorem applyEdits_of_halves {pre p q r post : Forest Tag} {n : Node Tag} {isRemoval : Bool}
    (target : p.IsProse) (beyond : r.IsProse) (filled : p ≠ []) (edit : isEdit n = true)
    (named : halves n = .ok ⟨p, q, isRemoval⟩) (apart : ∀ n ∈ pre.getLast?, isInline n = false)
    (before : pre.IsStill) (payload : q.IsStill) (behind : post.IsStill)
    (whole : (pre ++ p ++ r).IsJoined) (rest : post.IsJoined) (inside : IsJoined n.children)
    (ends : TextsEnd n.children) :
    applyEdits (pre ++ p ++ r ++ [n] ++ post) =
      .ok (pre ++ q ++ afterwards isRemoval r ++ post) := by
  have notText : n.data.isText = false := by
    rcases n with ⟨d, e, cs⟩
    cases d <;> first | rfl | simp [isEdit, Tag.category] at edit
  have joined : IsJoined (pre ++ p ++ r ++ n :: post) := by
    refine isJoined_append.2 ⟨whole, isJoined_cons.2 ⟨?_, ?_, inside, rest⟩, .inr ?_⟩
    · intro text
      simp [text, Tag.isText, Tag.text?] at notText
    · simp [notText]
    · simpa [StartsApart] using notText
  have leaves : TextsEnd (pre ++ p ++ r ++ n :: post) := by
    simp only [textsEnd_append, TextsEnd]
    refine ⟨⟨⟨before.ends, target.isStill.ends⟩, beyond.isStill.ends⟩, ?_, behind.ends⟩
    rcases n with ⟨d, e, cs⟩
    exact ⟨by simp [notText], ends⟩
  have still : IsStill (pre ++ (q ++ afterwards isRemoval r) ++ post) :=
    (before.append (payload.append (isProse_afterwards beyond).isStill)).append behind
  rw [List.append_assoc _ [n], List.singleton_append, applyEdits, resolveWithin,
    resolveSiblings_append target beyond filled edit named
    (any_isEdit_of_isEditFree before.free) (any_isEdit_of_isEditFree behind.free) apart
    (joined.joinText_eq leaves)]
  refine (onChildren_of_isStill still).trans ?_
  simp

/-- An edit that names how the running content before it starts changes just that. A replacement
puts its payload there; a removal takes the space behind along. -/
theorem applyEdits_leading {pre p r q post : Forest Tag} (e e' e'' : Extra) (filled : p ≠ [])
    (target : p.IsProse) (beyond : r.IsProse)
    (free : ∀ t ∈ [pre, q, post], IsEditFree t ∧ depth t ≤ maxDepth)
    (apart : ∀ n ∈ pre.getLast?, isInline n = false)
    (joined : ∀ t ∈ [pre ++ p ++ r, q, post], IsJoined t ∧ TextsEnd t) :
    applyEdits (pre ++ p ++ r ++
        [⟨.replace, e, [⟨.replaceMatch, e', p⟩, ⟨.replacePayload, e'', q⟩]⟩] ++ post) =
      .ok (pre ++ q ++ r ++ post) ∧
    applyEdits (pre ++ p ++ r ++ [⟨.remove, e, p⟩] ++ post) =
      .ok (pre ++ Slot.withoutFirstSpace r ++ post) := by
  simp only [List.forall_mem_cons, List.not_mem_nil, false_implies, implies_true, and_true]
    at free joined
  obtain ⟨⟨freePre, shallowPre⟩, ⟨freeQ, shallowQ⟩, freePost, shallowPost⟩ := free
  obtain ⟨⟨whole, ends⟩, ⟨joinedQ, endsQ⟩, joinedPost, endsPost⟩ := joined
  have before : pre.IsStill :=
    ⟨freePre, (textsEnd_append.1 (textsEnd_append.1 ends).1).1, shallowPre⟩
  have payload : q.IsStill := ⟨freeQ, endsQ, shallowQ⟩
  have behind : post.IsStill := ⟨freePost, endsPost, shallowPost⟩
  have named : IsJoined p := (isJoined_append.1 (isJoined_append.1 whole).1).2.1
  constructor
  · have inside : IsJoined [⟨.replaceMatch, e', p⟩, ⟨.replacePayload, e'', q⟩] := by
      simp [isJoined_cons, isJoined_nil, named, joinedQ, Tag.isText, Tag.text?]
    have endsInside : TextsEnd [⟨.replaceMatch, e', p⟩, ⟨.replacePayload, e'', q⟩] := by
      simp [TextsEnd, Node.TextsEnd, Tag.isText, Tag.text?, target.isStill.ends, endsQ]
    have halved : halves ⟨.replace, e, [⟨.replaceMatch, e', p⟩, ⟨.replacePayload, e'', q⟩]⟩ =
        .ok ⟨p, q, false⟩ := rfl
    exact applyEdits_of_halves target beyond filled rfl halved apart before payload behind whole
      joinedPost inside endsInside
  · have nothing : IsStill [] := ⟨by simp [IsEditFree, preorder], trivial, Nat.zero_le _⟩
    have halved : halves ⟨.remove, e, p⟩ = .ok ⟨p, [], true⟩ := rfl
    have resolved := applyEdits_of_halves target beyond filled rfl halved apart before nothing
      behind whole joinedPost named target.isStill.ends
    rwa [List.append_nil] at resolved

def toldByNight : Forest Tag :=
  [.branch .conditional [.branch (.onCondition "night") [.leaf (.text "It is dark.")]]]

def oakDoor : Forest Tag :=
  [.leaf (.text "The oak"), .leaf .space, .branch (.link "door") [.leaf (.text "door")]]

def standsAjar : Forest Tag := [.leaf .space, .leaf (.text "stands ajar.")]

theorem applyEdits_leading_oakDoor :
    applyEdits (toldByNight ++ oakDoor ++ standsAjar ++
        [.branch .replace [.branch .replaceMatch oakDoor,
          .branch .replacePayload [.leaf (.text "A gate")]]] ++ toldByNight) =
      .ok (toldByNight ++ [.leaf (.text "A gate")] ++ standsAjar ++ toldByNight) ∧
    applyEdits (toldByNight ++ oakDoor ++ standsAjar ++ [.branch .remove oakDoor] ++ toldByNight) =
      .ok (toldByNight ++ [.leaf (.text "stands ajar.")] ++ toldByNight) := by
  have target : oakDoor.IsProse := by
    unfold IsProse
    decide
  have beyond : standsAjar.IsProse := by
    unfold IsProse
    decide
  have ends : TextsEnd (toldByNight ++ oakDoor ++ standsAjar) ∧
      TextsEnd [.leaf (.text "A gate")] ∧ TextsEnd toldByNight := by
    simp [toldByNight, oakDoor, standsAjar, TextsEnd, Node.TextsEnd, Node.branch, Node.leaf,
      Tag.onCondition, Tag.isText, Tag.text?]
  refine applyEdits_leading {} {} {} (by decide) target beyond (by decide) (by decide) ?_
  simp only [List.forall_mem_cons, List.not_mem_nil, false_implies, implies_true, and_true]
  exact ⟨⟨by decide, ends.1⟩, ⟨by decide, ends.2.1⟩, by decide, ends.2.2⟩

end Forest

end WorldMarkup
