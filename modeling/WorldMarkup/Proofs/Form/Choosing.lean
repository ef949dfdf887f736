import Mathlib.Data.List.Chain
import Mathlib.Data.List.TakeWhile
import WorldMarkup.Proofs.Form.Marks
import WorldMarkup.World.Chain

/-!
What a reader sees of a field once every condition is decided: the characters in the branches that
are chosen. A conditional around or within a component shows, in each of its fields, what it shows
of the branches that speak of the component. Main statement: every field shows under every
evaluation what the documents show in it, if each conditional is taken for those branches.
-/

set_option autoImplicit false
set_option relaxedAutoImplicit false

namespace WorldMarkup

def Tag.characters : Tag → List Char
  | .text value => value.toList
  | _ => []

theorem Node.size_pos (n : Node Tag) : 0 < n.size := by
  cases n
  rw [Node.size]
  omega

theorem Forest.size_le_of_sublist {t u : Forest Tag} (h : t.Sublist u) : size t ≤ size u := by
  induction h with
  | slnil => exact Nat.le_refl _
  | cons n _ ih => exact Nat.le_trans ih (Nat.le_add_left _ _)
  | cons_cons n _ ih => exact Nat.add_le_add_left ih _

/-- A rule which branches of a conditional are shown. It is told the tags from the root down to the
conditional, and the branches. -/
structure Choice where
  pick : List Tag → Forest Tag → Forest Tag
  sublist (above : List Tag) (bs : Forest Tag) : (pick above bs).Sublist bs

mutual

/-- The visible characters of the nodes of a tree that count; `above` leads to the tree. -/
def Node.visible (counts : List Tag → Bool) (choice : Choice) (above : List Tag) :
    Node Tag → List Char
  | ⟨t, _, cs⟩ =>
    (if counts (above ++ [t]) then t.characters else []) ++
      Forest.visible counts choice (above ++ [t])
        (if t = .conditional then choice.pick above cs else cs)
termination_by n => 2 * n.size
decreasing_by
  have := Forest.size_le_of_sublist (choice.sublist above cs)
  rw [Node.size]
  split <;> omega

/-- The visible characters of the nodes of a forest that count. -/
def Forest.visible (counts : List Tag → Bool) (choice : Choice) (above : List Tag) :
    Forest Tag → List Char
  | [] => []
  | n :: rest => n.visible counts choice above ++ Forest.visible counts choice above rest
termination_by t => 2 * Forest.size t + 1
decreasing_by
  all_goals
    have := n.size_pos
    rw [Forest.size]
    omega

end

/-! ### The choice of a conditional -/

def Tag.isMet (holds : String → Bool) : Tag → Bool
  | .statement s => holds s.condition
  | _ => false

namespace Forest

variable {holds : String → Bool} {bs : Forest Tag}

/-- The branch that branches come down to, if any. -/
def chosen (holds : String → Bool) (bs : Forest Tag) : Forest Tag :=
  match (Node.branch .conditional bs).select holds with
  | .ok (.statement b) | .ok (.fallthrough b) => [b]
  | _ => []

/-- The branch that branches come down to, and those right behind it that repeat its condition. -/
def chosenRun (holds : String → Bool) (bs : Forest Tag) : Forest Tag :=
  match chosen holds bs with
  | [] => []
  | b :: _ => (List.dropWhile (fun m => m ≠ b) bs).takeWhile (fun m => b.data.same m.data)

theorem mem_of_selectAmong {otherwise : Option (Node Tag)} {s : Selection}
    (h : selectAmong holds otherwise bs = .ok s) :
    (∀ b, s = .statement b → b ∈ bs ∧ b.data.category = .branch) ∧
      ∀ b, s = .fallthrough b → b ∈ bs ∧ b.data.category = .branch ∨ otherwise = some b := by
  induction bs generalizing otherwise with
  | nil =>
    obtain rfl := Except.ok.inj h
    cases otherwise <;> simp
  | cons x rest ih =>
    rw [selectAmong] at h
    split at h
    · rename_i own
      split at h
      · obtain rfl := Except.ok.inj h
        simp [own, Tag.category]
      · obtain ⟨statement, fall⟩ := ih h
        exact ⟨fun b hb => (statement b hb).imp_left (.tail _),
          fun b hb => (fall b hb).imp_left (And.imp_left (.tail _))⟩
    · rename_i own
      obtain ⟨statement, fall⟩ := ih h
      refine ⟨fun b hb => (statement b hb).imp_left (.tail _), fun b hb => ?_⟩
      rcases fall b hb with ⟨mem, branch⟩ | held
      · exact .inl ⟨.tail _ mem, branch⟩
      · cases otherwise with
        | none => exact .inl (by simp [← Option.some.inj held, own, Tag.category])
        | some o => exact .inr held
    · simp at h

theorem chosen_cases (holds : String → Bool) (bs : Forest Tag) :
    chosen holds bs = [] ∨
      ∃ b ∈ bs, b.data.category = .branch ∧ chosen holds bs = [b] := by
  unfold chosen
  split
  · rename_i b h
    exact .inr ⟨b, ((mem_of_selectAmong h).1 b rfl).1, ((mem_of_selectAmong h).1 b rfl).2, rfl⟩
  · rename_i b h
    obtain ⟨mem, branch⟩ := ((mem_of_selectAmong h).2 b rfl).resolve_right (by simp)
    exact .inr ⟨b, mem, branch, rfl⟩
  · exact .inl rfl

theorem chosen_sublist (holds : String → Bool) (bs : Forest Tag) : (chosen holds bs).Sublist bs := by
  rcases chosen_cases holds bs with none | ⟨b, mem, -, one⟩
  · rw [none]
    exact List.nil_sublist bs
  · rw [one]
    exact List.singleton_sublist.2 mem

theorem chosenRun_sublist (holds : String → Bool) (bs : Forest Tag) :
    (chosenRun holds bs).Sublist bs := by
  unfold chosenRun
  split
  · exact List.nil_sublist bs
  · exact (List.takeWhile_sublist _).trans (List.dropWhile_sublist _)

theorem selectAmong_eq (branches : ∀ b ∈ bs, b.data.category = .branch)
    (otherwise : Option (Node Tag)) :
    selectAmong holds otherwise bs = .ok (match bs.find? (fun b => b.data.isMet holds) with
      | some b => .statement b
      | none => match otherwise.or (bs.find? (fun b => b.data = .fallthrough)) with
        | some b => .fallthrough b
        | none => .unresolved) := by
  induction bs generalizing otherwise with
  | nil => cases otherwise <;> rfl
  | cons b rest ih =>
    rcases b with ⟨d, e, cs⟩
    obtain ⟨own, beside⟩ := List.forall_mem_cons.1 branches
    cases d with
    | statement s =>
      cases opens : holds s.condition with
      | true => simp [selectAmong, Tag.isMet, opens]
      | false => simp [selectAmong, Tag.isMet, opens, ih beside]
    | fallthrough =>
      cases otherwise <;> simp [selectAmong, Tag.isMet, ih beside]
    | _ => simp [Tag.category] at own

def winner (holds : String → Bool) (bs : Forest Tag) : Tag → Bool :=
  if List.any bs (fun b => b.data.isMet holds) then Tag.isMet holds else (· = .fallthrough)

theorem chosen_eq (branches : ∀ b ∈ bs, b.data.category = .branch) :
    chosen holds bs = (List.find? (fun b => winner holds bs b.data) bs).toList := by
  have selected : (Node.branch .conditional bs).select holds = selectAmong holds none bs := rfl
  rw [chosen, selected, selectAmong_eq branches, winner]
  cases opened : List.find? (fun b : Node Tag => b.data.isMet holds) bs with
  | some b =>
    have some : List.any bs (fun b => b.data.isMet holds) = true :=
      List.any_eq_true.2 ⟨b, List.mem_of_find?_eq_some opened, by simpa using List.find?_some opened⟩
    simp [some, opened]
  | none =>
    have none : List.any bs (fun b => b.data.isMet holds) = false :=
      List.any_eq_false.2 (List.find?_eq_none.1 opened)
    rw [if_neg (by simp [none])]
    cases List.find? (fun b : Node Tag => decide (b.data = .fallthrough)) bs <;> rfl

theorem winner_congr {bs' : Forest Tag}
    (same : List.any bs (fun b => b.data.isMet holds) = List.any bs' (fun b => b.data.isMet holds)) :
    winner holds bs = winner holds bs' := by
  rw [winner, winner, same]

/-- The first node that passes a test, and those right behind it that speak of the same thing. -/
def runOf (p : Tag → Bool) (bs : Forest Tag) : Forest Tag :=
  match List.dropWhile (fun b => !p b.data) bs with
  | [] => []
  | b :: rest => b :: rest.takeWhile (fun m => b.data.same m.data)

theorem same_of_branch {t : Tag} (h : t.category = .branch) : t.same t = true := by
  cases t <;> simp [Tag.category] at h <;> simp [Tag.same]

theorem chosenRun_eq_chosen
    (apart : List.IsChain (fun m n : Node Tag => m.data.same n.data = false) bs) :
    chosenRun holds bs = chosen holds bs := by
  rcases chosen_cases holds bs with none | ⟨b, mem, branch, one⟩
  · rw [chosenRun, none]
  · have start : ∃ after, List.dropWhile (fun m => m ≠ b) bs = b :: after := by
      clear apart one
      induction bs with
      | nil => simp at mem
      | cons x rest ih =>
        by_cases first : x = b
        · exact ⟨rest, by simp [first]⟩
        · rw [List.dropWhile_cons_of_pos (by simpa using first)]
          exact ih ((List.mem_cons.1 mem).resolve_left (Ne.symm first))
    obtain ⟨after, start⟩ := start
    have behind : List.IsChain (fun m n : Node Tag => m.data.same n.data = false) (b :: after) := by
      rw [← start]
      exact apart.suffix (List.dropWhile_suffix _)
    rw [chosenRun, one]
    show List.takeWhile _ (List.dropWhile (fun m => m ≠ b) bs) = [b]
    rw [start, List.takeWhile_cons_of_pos (p := fun m : Node Tag => b.data.same m.data)
      (same_of_branch branch)]
    cases after with
    | nil => rfl
    | cons x after =>
      rw [List.takeWhile_cons_of_neg (by simpa using (List.isChain_cons_cons.1 behind).1)]

theorem dropWhile_ne_of_find? {p : Node Tag → Bool} {b : Node Tag} (h : List.find? p bs = some b) :
    List.dropWhile (fun m => m ≠ b) bs = List.dropWhile (fun m => !p m) bs := by
  induction bs with
  | nil => rfl
  | cons x rest ih =>
    rw [List.find?_cons] at h
    split at h
    · rename_i passes
      obtain rfl := Option.some.inj h
      simp [passes]
    · rename_i fails
      have other : x ≠ b := by
        rintro rfl
        rw [List.find?_some h] at fails
        simp at fails
      rw [List.dropWhile_cons_of_pos (by simpa using other),
        List.dropWhile_cons_of_pos (by simp [fails]), ih h]

theorem chosenRun_eq (branches : ∀ b ∈ bs, b.data.category = .branch) :
    chosenRun holds bs = runOf (winner holds bs) bs := by
  rw [chosenRun, chosen_eq branches, runOf]
  cases found : List.find? (fun b => winner holds bs b.data) bs with
  | none =>
    have none : List.dropWhile (fun b => !winner holds bs b.data) bs = [] := by
      rw [List.dropWhile_eq_nil_iff]
      simpa using found
    simp [none]
  | some b =>
    have drop := dropWhile_ne_of_find? found
    obtain ⟨passes, before, after, rfl, fail⟩ := List.find?_eq_some_iff_append.1 found
    have rest : List.dropWhile (fun m : Node Tag => !winner holds (before ++ b :: after) m.data)
        (before ++ b :: after) = b :: after := by
      rw [List.dropWhile_append_of_pos (by simpa using fail), List.dropWhile_cons_of_neg (by simpa)]
    have own : b.data.same b.data = true := same_of_branch (branches b (by simp))
    show List.takeWhile _ (List.dropWhile (fun m => m ≠ b) _) = _
    rw [drop, rest]
    simp [own]

variable {f : Node Tag → Node Tag}

theorem winner_map (data : ∀ n, (f n).data = n.data) :
    winner holds (List.map f bs) = winner holds bs := by
  refine winner_congr ?_
  rw [List.any_map]
  exact congrArg (List.any bs) (funext fun b => by simp [data])

theorem selectAmong_map (data : ∀ n, (f n).data = n.data) (otherwise : Option (Node Tag)) :
    selectAmong holds (otherwise.map f) (List.map f bs) =
      (selectAmong holds otherwise bs).map (fun s => match s with
        | .statement b => .statement (f b)
        | .fallthrough b => .fallthrough (f b)
        | .unresolved => .unresolved) := by
  induction bs generalizing otherwise with
  | nil => cases otherwise <;> rfl
  | cons b rest ih =>
    rw [List.map_cons, selectAmong, selectAmong, data]
    split
    · split
      · rfl
      · exact ih otherwise
    · rw [← ih]
      cases otherwise <;> rfl
    · rfl

theorem chosen_map (data : ∀ n, (f n).data = n.data) :
    chosen holds (List.map f bs) = List.map f (chosen holds bs) := by
  have selected (bs : Forest Tag) :
      (Node.branch .conditional bs).select holds = selectAmong holds none bs := rfl
  have mapped : selectAmong holds none (List.map f bs) = _ := selectAmong_map data none
  rw [chosen, chosen, selected, selected, mapped]
  cases selectAmong holds none bs with
  | error fault => rfl
  | ok s => cases s <;> rfl

theorem runOf_map (p : Tag → Bool) (data : ∀ n, (f n).data = n.data) :
    runOf p (List.map f bs) = List.map f (runOf p bs) := by
  have same : ((fun b : Node Tag => !p b.data) ∘ f) = fun b => !p b.data :=
    funext fun b => by simp [data]
  rw [runOf, runOf, List.dropWhile_map, same]
  cases List.dropWhile (fun b : Node Tag => !p b.data) bs with
  | nil => rfl
  | cons b rest => simp [List.takeWhile_map, Function.comp_def, data]

theorem chosenRun_map (branches : ∀ b ∈ bs, b.data.category = .branch)
    (data : ∀ n, (f n).data = n.data) :
    chosenRun holds (List.map f bs) = List.map f (chosenRun holds bs) := by
  have mapped : ∀ b ∈ List.map f bs, b.data.category = .branch := by
    simpa [data] using branches
  rw [chosenRun_eq mapped, chosenRun_eq branches, winner_map data, runOf_map _ data]

/-! ### Joined branches -/

/-- A test of tags that tells no two apart which speak of the same thing. -/
def TellsThings (p : Tag → Bool) : Prop := ∀ x y : Tag, x.same y = true → p x = p y

theorem tellsThings_isMet (holds : String → Bool) : TellsThings (Tag.isMet holds) := by
  intro x y same
  cases x <;> cases y <;> simp_all [Tag.same, Tag.isMet]

theorem tellsThings_winner (holds : String → Bool) (bs : Forest Tag) :
    TellsThings (winner holds bs) := by
  rw [winner]
  split
  · exact tellsThings_isMet holds
  · intro x y same
    cases x <;> cases y <;> simp_all [Tag.same]

theorem foldl_joinBranch_concat (done rest : Forest Tag) (b : Node Tag) :
    rest.foldl joinBranch (done ++ [b]) = done ++ rest.foldl joinBranch [b] := by
  induction rest generalizing done b with
  | nil => rfl
  | cons x rest ih =>
    simp only [List.foldl_cons, joinBranch, List.getLast?_concat, List.dropLast_concat,
      List.getLast?_singleton, List.dropLast_singleton]
    split
    · rw [ih, List.nil_append]
    · rw [ih, ih [b] x, List.append_assoc]

theorem same_absorb {b x : Node Tag} (same : b.data.same x.data = true) (t : Tag) :
    (b.absorb x).data.same t = b.data.same t := by
  rcases absorb_data b x with own | other
  · rw [own]
  · rw [other, Tag.same_comm x.data, Tag.same_comm b.data]
    exact (Tag.same_congr same t).symm

/-- Joined branches begin with the first branch, together with those right behind it that repeat
its condition. -/
theorem joinBranches_cons (b : Node Tag) (rest : Forest Tag) :
    joinBranches (b :: rest) =
      (List.takeWhile (fun m => b.data.same m.data) rest).foldl Node.absorb b ::
        joinBranches (List.dropWhile (fun m => b.data.same m.data) rest) := by
  rw [joinBranches, List.foldl_cons]
  show rest.foldl joinBranch [b] = _
  induction rest generalizing b with
  | nil => rfl
  | cons x rest ih =>
    rw [List.foldl_cons]
    cases same : b.data.same x.data with
    | true =>
      have join : joinBranch [b] x = [b.absorb x] := by simp [joinBranch, same]
      have test : (fun m : Node Tag => (b.absorb x).data.same m.data) =
          fun m => b.data.same m.data := funext fun m => same_absorb same m.data
      simp only [join, ih, test, List.takeWhile_cons, List.dropWhile_cons, same, if_true,
        List.foldl_cons]
    | false =>
      have join : joinBranch [b] x = [b] ++ [x] := by simp [joinBranch, same]
      rw [join, foldl_joinBranch_concat]
      simp [same, joinBranches, joinBranch]

theorem children_foldl_absorb (b : Node Tag) (xs : Forest Tag) :
    (xs.foldl Node.absorb b).children = b.children ++ xs.flatMap Node.children := by
  induction xs generalizing b with
  | nil => simp
  | cons x xs ih => rw [List.foldl_cons, ih, absorb_children, List.flatMap_cons, List.append_assoc]

theorem data_foldl_absorb {p : Tag → Bool} (tells : TellsThings p) {b : Node Tag} {xs : Forest Tag}
    (same : ∀ x ∈ xs, b.data.same x.data = true) : p (xs.foldl Node.absorb b).data = p b.data := by
  induction xs generalizing b with
  | nil => rfl
  | cons x xs ih =>
    obtain ⟨own, beside⟩ := List.forall_mem_cons.1 same
    rw [List.foldl_cons, ih (fun y hy => by rw [same_absorb own]; exact beside y hy)]
    rcases absorb_data b x with h | h
    · rw [h]
    · rw [h, tells _ _ own]

theorem dropWhile_dropWhile_of_imp {α : Type} {p q : α → Bool} (imp : ∀ x, p x = true → q x = true)
    (l : List α) : (l.dropWhile p).dropWhile q = l.dropWhile q := by
  induction l with
  | nil => rfl
  | cons x l ih =>
    cases hp : p x with
    | true => simp [hp, imp x hp, ih]
    | false => simp [hp]

/-- The first of joined branches that passes a test holds what the run of branches holds that was
joined into it. -/
theorem find?_joinBranches {p : Tag → Bool} (tells : TellsThings p) (bs : Forest Tag) :
    (List.find? (fun b => p b.data) (joinBranches bs)).toList.flatMap Node.children =
        (runOf p bs).flatMap Node.children ∧
      List.any (joinBranches bs) (fun b => p b.data) = List.any bs (fun b => p b.data) := by
  induction hn : bs.length using Nat.strong_induction_on generalizing bs with
  | _ n ih =>
    cases bs with
    | nil => exact ⟨rfl, rfl⟩
    | cons b rest =>
      have group : ∀ x ∈ List.takeWhile (fun m => b.data.same m.data) rest,
          b.data.same x.data = true := fun x hx => by
        simpa using List.mem_takeWhile_imp hx
      have head := data_foldl_absorb tells group
      have shorter : (List.dropWhile (fun m => b.data.same m.data) rest).length < n := by
        have := (List.dropWhile_sublist (l := rest) (fun m => b.data.same m.data)).length_le
        simp only [List.length_cons] at hn
        omega
      obtain ⟨found, any⟩ := ih _ shorter _ rfl
      rw [joinBranches_cons, List.find?_cons, List.any_cons, List.any_cons, head]
      cases passes : p b.data with
      | true => simp [runOf, passes, children_foldl_absorb]
      | false =>
        have fail (m : Node Tag) (same : b.data.same m.data = true) : (!p m.data) = true := by
          rw [← tells _ _ same, passes]
          rfl
        have drop : List.dropWhile (fun m : Node Tag => !p m.data)
            (List.dropWhile (fun m => b.data.same m.data) rest) =
              List.dropWhile (fun m => !p m.data) (b :: rest) := by
          rw [dropWhile_dropWhile_of_imp fail, List.dropWhile_cons_of_pos (by simp [passes])]
        constructor
        · rw [found, runOf, runOf, drop]
        · rw [Bool.false_or, Bool.false_or, any]
          conv_rhs => rw [← List.takeWhile_append_dropWhile (p := fun m => b.data.same m.data)
            (l := rest), List.any_append]
          have none : List.any (List.takeWhile (fun m => b.data.same m.data) rest)
              (fun b => p b.data) = false := by
            rw [List.any_eq_false]
            intro x hx
            simpa using fail x (group x hx)
          rw [none, Bool.false_or]

theorem forall_branch_of_areBranches {c : Option Tag} {t : Forest Tag} (h : Forest.AreBranches c t) :
    ∀ b ∈ t, b.data.category = .branch ∧ Forest.Fits c b.children := by
  induction t with
  | nil => simp
  | cons b t ih =>
    obtain ⟨own, below, beside⟩ := areBranches_node.1 h
    exact List.forall_mem_cons.2 ⟨⟨own, below⟩, ih beside⟩

/-- Joined branches come down to what the chosen run of the branches holds. -/
theorem chosen_joinBranches {c : Option Tag} (branches : Forest.AreBranches c bs) :
    (chosen holds (joinBranches bs)).flatMap Node.children =
      (chosenRun holds bs).flatMap Node.children := by
  have each {t : Forest Tag} (h : Forest.AreBranches c t) : ∀ b ∈ t, b.data.category = .branch :=
    fun b hb => (forall_branch_of_areBranches h b hb).1
  have joined : Forest.AreBranches c (joinBranches bs) := areBranches_joinBranches trivial branches
  have same : winner holds (joinBranches bs) = winner holds bs :=
    winner_congr (find?_joinBranches (tellsThings_isMet holds) bs).2
  rw [chosen_eq (each joined), chosenRun_eq (each branches), same]
  exact (find?_joinBranches (tellsThings_winner holds bs) bs).1

end Forest

namespace Choice

/-- Each conditional shows the branch that it comes down to. -/
def plain (holds : String → Bool) : Choice where
  pick _ bs := Forest.chosen holds bs
  sublist _ bs := Forest.chosen_sublist holds bs

end Choice

/-! ### What is visible -/

theorem Node.induction {α : Type} {motive : Node α → Prop}
    (node : ∀ d e cs, (∀ n ∈ cs, motive n) → motive ⟨d, e, cs⟩) (n : Node α) : motive n := by
  have each : ∀ t : Forest α, ∀ n ∈ t, motive n := by
    intro t
    induction t using Forest.induction with
    | nil => simp
    | cons d e cs rest hcs hrest => exact List.forall_mem_cons.2 ⟨node d e cs hcs, hrest⟩
  exact each [n] n (by simp)

section Visible

variable {counts counts' : List Tag → Bool} {choice choice' : Choice} {above above' : List Tag}

theorem Forest.visible_eq_flatMap (t : Forest Tag) :
    Forest.visible counts choice above t = t.flatMap (Node.visible counts choice above) := by
  induction t with
  | nil => rw [Forest.visible]; rfl
  | cons n t ih => rw [Forest.visible, ih, List.flatMap_cons]

theorem Node.visible_congr (hcounts : ∀ more, counts (above ++ more) = counts' (above' ++ more))
    (hchoice : ∀ more bs, choice.pick (above ++ more) bs = choice'.pick (above' ++ more) bs)
    (n : Node Tag) : n.visible counts choice above = n.visible counts' choice' above' := by
  induction n using Node.induction generalizing above above' with
  | node d e cs ih =>
    have below (m : Node Tag) (hm : m ∈ cs) :
        m.visible counts choice (above ++ [d]) = m.visible counts' choice' (above' ++ [d]) := by
      refine ih m hm (fun more => ?_) fun more bs => ?_
      · simpa using hcounts (d :: more)
      · simpa using hchoice (d :: more) bs
    have here : choice.pick above cs = choice'.pick above' cs := by simpa using hchoice [] cs
    rw [Node.visible, Node.visible, hcounts, here, Forest.visible_eq_flatMap,
      Forest.visible_eq_flatMap]
    refine congrArg (_ ++ ·) (List.flatMap_congr fun m hm => below m ?_)
    split at hm
    · exact (choice'.sublist above' cs).subset hm
    · exact hm

end Visible

/-! ### What a forest shows by itself -/

/-- The characters that a forest shows, each conditional in it coming down to one of its branches
or to nothing. -/
def Forest.shows (holds : String → Bool) (t : Forest Tag) : List Char :=
  Forest.visible (fun _ => true) (.plain holds) [] t

namespace Forest

variable {holds : String → Bool} {t u : Forest Tag} {c : Option Tag}

@[simp] theorem shows_nil : shows holds [] = [] := by
  rw [shows, visible]

theorem shows_append : shows holds (t ++ u) = shows holds t ++ shows holds u := by
  simp [shows, visible_eq_flatMap]

theorem shows_flatMap {β : Type} (f : β → Forest Tag) (l : List β) :
    shows holds (l.flatMap f) = l.flatMap (fun x => shows holds (f x)) := by
  induction l with
  | nil => exact shows_nil
  | cons x l ih => rw [List.flatMap_cons, List.flatMap_cons, shows_append, ih]

theorem visible_eq_shows (above : List Tag) (t : Forest Tag) :
    Forest.visible (fun _ => true) (.plain holds) above t = shows holds t := by
  have node (n : Node Tag) : n.visible (fun _ => true) (.plain holds) above =
      n.visible (fun _ => true) (.plain holds) [] :=
    @Node.visible_congr _ _ _ _ above [] (fun _ => rfl) (fun _ _ => rfl) n
  rw [shows, visible_eq_flatMap, visible_eq_flatMap]
  exact List.flatMap_congr fun n _ => node n

theorem shows_cons (d : Tag) (e : Extra) (cs rest : Forest Tag) :
    shows holds (⟨d, e, cs⟩ :: rest) = d.characters ++
      shows holds (if d = .conditional then chosen holds cs else cs) ++ shows holds rest := by
  rw [shows, visible, Node.visible, if_pos rfl, visible_eq_shows]
  rfl

theorem characters_of_branch {d : Tag} (h : d.category = .branch) :
    d.characters = [] ∧ d ≠ .conditional := by
  cases d <;> simp_all [Tag.category, Tag.characters]

theorem shows_branches (branches : ∀ b ∈ t, b.data.category = .branch) :
    shows holds t = shows holds (t.flatMap Node.children) := by
  induction t with
  | nil => rfl
  | cons b t ih =>
    rcases b with ⟨d, e, cs⟩
    obtain ⟨own, beside⟩ := List.forall_mem_cons.1 branches
    obtain ⟨none, other⟩ := characters_of_branch own
    rw [shows_cons, none, if_neg other, ih beside, List.flatMap_cons, shows_append]
    rfl

theorem stripInherited_eq_map (t : Forest Tag) :
    Forest.stripInherited t = List.map Node.stripInherited t := by
  induction t with
  | nil => rfl
  | cons n t ih => rw [Forest.stripInherited, ih, List.map_cons]

theorem shows_eq_flatMap (t : Forest Tag) : shows holds t = t.flatMap (fun n => shows holds [n]) := by
  rw [← shows_flatMap, List.flatMap_singleton']

theorem shows_map {f : Node Tag → Node Tag} (each : ∀ n ∈ t, shows holds [f n] = shows holds [n]) :
    shows holds (List.map f t) = shows holds t := by
  rw [shows_eq_flatMap, List.flatMap_map, shows_eq_flatMap t]
  exact List.flatMap_congr each

theorem shows_stripInherited (t : Forest Tag) :
    shows holds (Forest.stripInherited t) = shows holds t := by
  have data (n : Node Tag) : n.stripInherited.data = n.data := by
    cases n
    rfl
  have node (n : Node Tag) : shows holds [n.stripInherited] = shows holds [n] := by
    induction n using Node.induction with
    | node d e cs ih =>
      rw [Node.stripInherited, shows_cons, shows_cons, stripInherited_eq_map, chosen_map data]
      split
      · rw [shows_map fun n hn => ih n ((chosen_sublist holds cs).subset hn)]
      · rw [shows_map ih]
  rw [stripInherited_eq_map, shows_map fun n _ => node n]

theorem joinTextAfter_branches (branches : ∀ b ∈ t, b.data.category = .branch)
    (held : Option (Node Tag)) :
    joinTextAfter held t = held.toList ++ List.map Node.joinText t := by
  induction t generalizing held with
  | nil => simp [joinTextAfter_nil]
  | cons b t ih =>
    rcases b with ⟨d, e, cs⟩
    obtain ⟨own, beside⟩ := List.forall_mem_cons.1 branches
    have apart : d.isText = false := by
      cases d <;> simp_all [Tag.category, Tag.isText, Tag.text?]
    rw [joinTextAfter_cons apart, ih beside]
    rfl

theorem shows_text (value : String) (e : Extra) (rest : Forest Tag) :
    shows holds (⟨.text value, e, []⟩ :: rest) = value.toList ++ shows holds rest := by
  simp [shows_cons, Tag.characters]

/-- Joining texts keeps what is shown. -/
theorem shows_joinTextAfter {c : Option Tag} :
    (Forest.Fits c t → ∀ held : Option (Node Tag),
      (∀ n ∈ held, n.data.isText = true → n.children = []) →
        shows holds (joinTextAfter held t) = shows holds held.toList ++ shows holds t) ∧
    (Forest.AreBranches c t →
      ∀ b ∈ t, shows holds (joinText b.children) = shows holds b.children) := by
  induction t using Forest.induction generalizing c with
  | nil => exact ⟨fun _ held _ => by simp [joinTextAfter_nil], fun _ => by simp⟩
  | cons d e cs rest hcs hrest =>
    constructor
    · intro fits held leaf
      have ends := textsEnd_of_fits.1 fits
      obtain ⟨⟨-, below⟩, beside⟩ := fits
      have behind (n : Node Tag) (hn : n.data.isText = true → n.children = []) :=
        (hrest (c := c)).1 beside (some n) (by simpa using hn)
      cases text : d.isText with
      | false =>
        rw [joinTextAfter_cons text, shows_append, behind _ (by simp [text]), Option.toList_some,
          shows_cons, shows_cons]
        have inside : shows holds
            (if d = .conditional then chosen holds (joinText cs) else joinText cs) =
              shows holds (if d = .conditional then chosen holds cs else cs) := by
          by_cases conditional : d = .conditional
          · rw [if_pos conditional] at below
            rw [if_pos conditional, if_pos conditional]
            have branches := forall_branch_of_areBranches below.2
            have joined : joinText cs = List.map Node.joinText cs :=
              joinTextAfter_branches (fun b hb => (branches b hb).1) none
            have among := (chosen_sublist holds cs).subset
            have data (n : Node Tag) : n.joinText.data = n.data := by
              cases n
              rfl
            rw [joined, chosen_map data, shows_branches (t := chosen holds cs)
              (fun b hb => (branches b (among hb)).1), shows_branches (fun b hb => by
                obtain ⟨b', hb', rfl⟩ := List.mem_map.1 hb
                rw [data]
                exact (branches b' (among hb')).1), List.flatMap_map, shows_flatMap, shows_flatMap]
            refine List.flatMap_congr fun b hb => ?_
            rw [← (hcs (c := c)).2 below.2 b (among hb)]
            cases b
            rfl
          · rw [if_neg conditional] at below
            rw [if_neg conditional, if_neg conditional, joinText, hcs.1 below none (by simp)]
            simp
        rw [joinText] at inside
        simp [inside]
      | true =>
        obtain rfl : cs = [] := ends.1.1 text
        obtain ⟨value, rfl⟩ := Tag.eq_text_of_isText text
        rw [shows_text]
        rcases joinTextAfter_text held value e rest with
          ⟨rfl, joined⟩ | ⟨before, e', cs', rfl, joined⟩ | joined
        · rw [joined, hrest.1 beside held leaf]
          simp
        · obtain rfl : cs' = [] := leaf _ rfl rfl
          rw [joined, behind _ (by simp)]
          simp [shows_text, String.toList_append]
        · rw [joined, shows_append, behind _ (by simp)]
          simp [shows_text]
    · intro branches
      obtain ⟨-, below, beside⟩ := areBranches_node.1 branches
      refine List.forall_mem_cons.2 ⟨?_, hrest.2 beside⟩
      rw [joinText, hcs.1 below none (by simp)]
      simp

theorem shows_joinText {c : Option Tag} (h : Forest.Fits c t) :
    shows holds (joinText t) = shows holds t := by
  rw [joinText, shows_joinTextAfter.1 h none (by simp)]
  simp

end Forest

end WorldMarkup
