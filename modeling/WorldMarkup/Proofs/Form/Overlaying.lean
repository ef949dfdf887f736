import WorldMarkup.World.Identity

/-!
Laying one forest upon another, node by node: a node joins the sibling that speaks of the same
thing, its children laid upon the children there, or it comes last. Main statement: where siblings
speak of different things, it does not matter in which order three forests are brought together.
-/

set_option autoImplicit false
set_option relaxedAutoImplicit false

namespace WorldMarkup

/-- Change the first node that speaks of a thing, or set a new one behind all. -/
def Forest.putAt (t : Tag) (change : Node Tag → Node Tag) (new : Node Tag) :
    Forest Tag → Forest Tag
  | [] => [new]
  | n :: rest => if n.data.same t then change n :: rest else n :: Forest.putAt t change new rest

mutual

/-- Lay a tree upon a forest. A node that joins another gives it its tag, and the first name is
kept. -/
def Node.upon : Node Tag → Forest Tag → Forest Tag
  | ⟨t, e, cs⟩ => Forest.putAt t
      (fun n => ⟨t, { id := n.extra.id.or e.id }, Forest.upon cs n.children⟩) ⟨t, e, cs⟩

def Forest.upon : Forest Tag → Forest Tag → Forest Tag
  | [] => fun g => g
  | n :: rest => fun g => Forest.upon rest (n.upon g)

end

def Node.joined (n m : Node Tag) : Node Tag :=
  ⟨m.data, { id := n.extra.id.or m.extra.id }, Forest.upon m.children n.children⟩

mutual

/-- What is below a node speaks of different things, unless it is a wrapper, whose branches are
never laid upon others. -/
def Node.IsKeyed : Node Tag → Prop
  | ⟨t, _, cs⟩ => t.isWrapper = false → Forest.IsKeyed cs

/-- Siblings speak of different things. -/
def Forest.IsKeyed : Forest Tag → Prop
  | [] => True
  | n :: rest =>
    n.IsKeyed ∧ (∀ m ∈ rest, n.data.same m.data = false) ∧ Forest.IsKeyed rest

end

def Forest.Holds (t : Tag) (g : Forest Tag) : Prop := ∃ n ∈ g, n.data.same t = true

namespace Tag

variable {a b c : Tag}

theorem isWrapper_of_same (h : a.same b = true) : a.isWrapper = false := by
  cases a <;> cases b <;> simp [same] at h <;> rfl

theorem same_self_of_same (h : a.same b = true) : b.same b = true := by
  rw [same_comm] at h
  exact same_trans h (by rwa [same_comm])

end Tag

namespace Forest

variable {n m x : Node Tag} {t u v : Forest Tag}

theorem upon_cons : Forest.upon (n :: t) u = Forest.upon t (n.upon u) := rfl

theorem node_upon_nil : n.upon [] = [n] := by
  cases n
  rfl

theorem node_upon_same (h : x.data.same n.data = true) :
    n.upon (x :: t) = x.joined n :: t := by
  cases n
  simp only [Node.upon, Forest.putAt]
  rw [if_pos h]
  rfl

theorem node_upon_other (h : x.data.same n.data = false) : n.upon (x :: t) = x :: n.upon t := by
  cases n
  simp only [Node.upon, Forest.putAt]
  rw [if_neg (by simpa using h)]

theorem node_upon_append (h : ∀ x ∈ t, x.data.same n.data = false) :
    n.upon (t ++ u) = t ++ n.upon u := by
  induction t with
  | nil => rfl
  | cons x t ih =>
    rw [List.cons_append, node_upon_other (h x (by simp)), ih (fun y hy => h y (by simp [hy]))]
    rfl

theorem node_upon_new (h : ∀ x ∈ t, x.data.same n.data = false) : n.upon t = t ++ [n] := by
  have := node_upon_append (u := []) h
  rwa [List.append_nil, node_upon_nil] at this

/-- Each node of what comes of laying a tree upon a forest was there, is the tree, or is a node
that the tree has joined. -/
theorem mem_node_upon (h : x ∈ n.upon t) :
    x ∈ t ∨ x = n ∨ ∃ y ∈ t, y.data.same n.data = true ∧ x = y.joined n := by
  induction t with
  | nil =>
    rw [node_upon_nil] at h
    exact .inr (.inl (List.mem_singleton.1 h))
  | cons y t ih =>
    cases same : y.data.same n.data with
    | true =>
      rw [node_upon_same same] at h
      rcases List.mem_cons.1 h with rfl | h
      · exact .inr (.inr ⟨y, by simp, same, rfl⟩)
      · exact .inl (by simp [h])
    | false =>
      rw [node_upon_other same] at h
      rcases List.mem_cons.1 h with rfl | h
      · exact .inl (by simp)
      · rcases ih h with h | rfl | ⟨z, hz, hsame, rfl⟩
        · exact .inl (by simp [h])
        · exact .inr (.inl rfl)
        · exact .inr (.inr ⟨z, by simp [hz], hsame, rfl⟩)

/-! ### Siblings that speak of different things -/

theorem isKeyed_node_upon
    (below : n.data.isWrapper = false → ∀ c, IsKeyed c → IsKeyed (Forest.upon n.children c))
    (hn : n.IsKeyed) (ht : IsKeyed t) : IsKeyed (n.upon t) := by
  induction t with
  | nil =>
    rw [node_upon_nil]
    exact ⟨hn, by simp, trivial⟩
  | cons x t ih =>
    obtain ⟨own, apart, beside⟩ := ht
    cases same : x.data.same n.data with
    | true =>
      rw [node_upon_same same]
      refine ⟨?_, ?_, beside⟩
      · intro _
        cases x
        have incoming : n.data.isWrapper = false :=
          Tag.isWrapper_of_same (Tag.same_self_of_same same)
        exact below incoming _ (own (Tag.isWrapper_of_same same))
      · intro y hy
        show n.data.same y.data = false
        rw [Tag.same_comm, ← Tag.same_congr same, Tag.same_comm]
        exact apart y hy
    | false =>
      rw [node_upon_other same]
      refine ⟨own, ?_, ih beside⟩
      intro y hy
      rcases mem_node_upon hy with hy | rfl | ⟨z, hz, hsame, rfl⟩
      · exact apart y hy
      · exact same
      · exact same

theorem isKeyed_upon (ht : IsKeyed t) (hu : IsKeyed u) : IsKeyed (Forest.upon t u) := by
  induction t using Forest.induction generalizing u with
  | nil => exact hu
  | cons d e cs rest hcs hrest =>
    obtain ⟨own, -, beside⟩ := ht
    rw [upon_cons]
    exact hrest beside (isKeyed_node_upon (fun plain c hc => hcs (own plain) hc) own hu)

theorem upon_nil (h : IsKeyed t) : Forest.upon t [] = t := by
  have laid (u : Forest Tag) (apart : ∀ n ∈ t, ∀ x ∈ u, x.data.same n.data = false) :
      Forest.upon t u = u ++ t := by
    induction t generalizing u with
    | nil => simp [Forest.upon]
    | cons n t ih =>
      obtain ⟨-, own, beside⟩ := h
      rw [upon_cons, node_upon_new (apart n (by simp)), ih beside, List.append_assoc]
      · rfl
      · intro m hm x hx
        rcases List.mem_append.1 hx with hx | hx
        · exact apart m (by simp [hm]) x hx
        · obtain rfl := List.mem_singleton.1 hx
          exact own m hm
  exact laid [] (by simp)

/-! ### The order in which forests are brought together -/

theorem holds_node_upon_self (h : n.data.same m.data = true) : Holds m.data (n.upon t) := by
  induction t with
  | nil =>
    rw [node_upon_nil]
    exact ⟨n, by simp, h⟩
  | cons x t ih =>
    cases same : x.data.same n.data with
    | true =>
      rw [node_upon_same same]
      exact ⟨x.joined n, by simp, h⟩
    | false =>
      rw [node_upon_other same]
      obtain ⟨y, hy, hsame⟩ := ih
      exact ⟨y, by simp [hy], hsame⟩

theorem Holds.node_upon (h : Holds m.data t) (apart : n.data.same m.data = false) :
    Holds m.data (n.upon t) := by
  obtain ⟨y, hy, same⟩ := h
  induction t with
  | nil => simp at hy
  | cons x t ih =>
    cases joins : x.data.same n.data with
    | true =>
      rw [node_upon_same joins]
      rcases List.mem_cons.1 hy with rfl | hy
      · rw [Tag.same_comm, Tag.same_congr joins, Tag.same_comm, apart] at same
        simp at same
      · exact ⟨y, by simp [hy], same⟩
    | false =>
      rw [node_upon_other joins]
      rcases List.mem_cons.1 hy with rfl | hy
      · exact ⟨y, by simp, same⟩
      · obtain ⟨z, hz, hsame⟩ := ih hy
        exact ⟨z, by simp [hz], hsame⟩

/-- Two trees that speak of different things may be laid in either order, if one of them does not
come last. -/
theorem node_upon_comm (held : Holds m.data t) (apart : n.data.same m.data = false) :
    m.upon (n.upon t) = n.upon (m.upon t) := by
  induction t with
  | nil =>
    obtain ⟨y, hy, -⟩ := held
    simp at hy
  | cons x t ih =>
    have apart' : m.data.same n.data = false := by rwa [Tag.same_comm]
    cases toN : x.data.same n.data with
    | true =>
      have toM : x.data.same m.data = false := by
        rw [Tag.same_comm, Tag.same_congr toN, apart']
      rw [node_upon_same toN, node_upon_other toM, node_upon_same toN]
      exact node_upon_other apart
    | false =>
      rw [node_upon_other toN]
      cases toM : x.data.same m.data with
      | true =>
        rw [node_upon_same toM, node_upon_same toM]
        exact (node_upon_other (x := x.joined m) apart').symm
      | false =>
        rw [node_upon_other toM, node_upon_other toM, node_upon_other toN, ih]
        obtain ⟨y, hy, same⟩ := held
        rcases List.mem_cons.1 hy with rfl | hy
        · rw [toM] at same
          simp at same
        · exact ⟨y, hy, same⟩

theorem node_upon_upon_comm (held : Holds m.data u)
    (apart : ∀ n ∈ t, n.data.same m.data = false) :
    m.upon (Forest.upon t u) = Forest.upon t (m.upon u) := by
  induction t generalizing u with
  | nil => rfl
  | cons n t ih =>
    have own := apart n (by simp)
    rw [upon_cons, upon_cons, ih (held.node_upon own) (fun x hx => apart x (by simp [hx])),
      node_upon_comm held own]

/-- Laying one tree after another that speaks of the same thing is laying the one that the first
becomes. -/
theorem node_upon_node (same : m.data.same n.data = true)
    (below : ∀ c, Forest.upon n.children (Forest.upon m.children c) =
      Forest.upon (Forest.upon n.children m.children) c) :
    n.upon (m.upon t) = (m.joined n).upon t := by
  induction t with
  | nil => rw [node_upon_nil, node_upon_nil, node_upon_same same]
  | cons x t ih =>
    have alike : x.data.same (m.joined n).data = x.data.same m.data :=
      (Tag.same_congr same x.data).symm
    cases joins : x.data.same m.data with
    | true =>
      have next : (x.joined m).data.same n.data = true := same
      rw [node_upon_same joins, node_upon_same next, node_upon_same (alike.trans joins)]
      simp only [Node.joined, Option.or_assoc, below]
    | false =>
      have next : x.data.same n.data = false := by rw [← Tag.same_congr same, joins]
      rw [node_upon_other joins, node_upon_other next, node_upon_other (alike.trans joins), ih]

theorem node_upon_upon
    (below : n.data.isWrapper = false → ∀ v c, IsKeyed v →
      Forest.upon n.children (Forest.upon v c) = Forest.upon (Forest.upon n.children v) c)
    (keyed : IsKeyed u) : n.upon (Forest.upon u t) = Forest.upon (n.upon u) t := by
  induction u generalizing t with
  | nil => rw [node_upon_nil]; rfl
  | cons m u ih =>
    obtain ⟨own, apart, beside⟩ := keyed
    cases same : m.data.same n.data with
    | true =>
      have incoming : n.data.isWrapper = false :=
        Tag.isWrapper_of_same (Tag.same_self_of_same same)
      have inside : IsKeyed m.children := by
        cases m
        exact own (Tag.isWrapper_of_same same)
      have others : ∀ x ∈ u, x.data.same n.data = false := by
        intro x hx
        rw [← Tag.same_congr same, Tag.same_comm]
        exact apart x hx
      rw [node_upon_same same, upon_cons, upon_cons,
        node_upon_upon_comm (holds_node_upon_self same) others,
        node_upon_node same (fun c => below incoming _ c inside)]
    | false => rw [node_upon_other same, upon_cons, upon_cons, ih beside]

theorem upon_assoc (ht : IsKeyed t) (hu : IsKeyed u) :
    Forest.upon t (Forest.upon u v) = Forest.upon (Forest.upon t u) v := by
  induction t using Forest.induction generalizing u v with
  | nil => rfl
  | cons d e cs rest hcs hrest =>
    obtain ⟨own, -, beside⟩ := ht
    have laid : IsKeyed (Node.upon ⟨d, e, cs⟩ u) :=
      isKeyed_node_upon (fun plain c hc => isKeyed_upon (own plain) hc) own hu
    rw [upon_cons, upon_cons, node_upon_upon (fun plain w c hw => hcs (own plain) hw) hu,
      hrest beside laid]

end Forest

end WorldMarkup
