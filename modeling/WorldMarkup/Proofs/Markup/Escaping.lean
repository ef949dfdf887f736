import WorldMarkup.Proofs.Markup.Spelling

/-!
Escaping undone by scanning. Main statement: a value written as a key or as a literal scans to a
single token that stands for the value; an escaped text scans to text tokens that say the text; and
an expression scans to a single token that holds it exactly when its braces outside of literals
match.
-/

set_option autoImplicit false
set_option relaxedAutoImplicit false

namespace WorldMarkup.Markup

def tokensOf (cs : List Char) : Except ReadError (List Token) :=
  (scan (String.ofList cs)).map (List.map Placed.token)

theorem tokensOf_eq_ok {cs : List Char} {ts : List Token} :
    tokensOf cs = .ok ts ↔ ∃ ps, scanFrom false 0 cs = .ok ps ∧ ps.map Placed.token = ts := by
  rw [tokensOf, scan, String.toList_ofList]
  cases scanFrom false 0 cs <;> simp [Except.map]

theorem map_eq_ok {ε β γ : Type} {x : Except ε β} {f : β → γ} {c : γ} :
    x.map f = .ok c ↔ ∃ b, x = .ok b ∧ f b = c := by
  cases x <;> simp [Except.map]

/-! ### Elements with a single property -/

section Values

variable {n k : String}

def valueLead (n k : String) : List Token := [.openTag, .name n.toList, .name k.toList, .equals]

theorem leads_value (element : isName n.toList = true) (property : isName k.toList = true)
    (rest : List Char) :
    Leads false ('<' :: (n.toList ++ ' ' :: (k.toList ++ ['=']))) (valueLead n k) true rest := by
  have key : Leads true (k.toList ++ ['=']) [.name k.toList, .equals] true rest :=
    (Leads.name property rfl).append Leads.equals
  have gap : ∀ d ∈ [' '], isLayoutBlank d = true := List.forall_mem_singleton.2 rfl
  have spaced : Leads true (' ' :: (k.toList ++ ['='])) [.name k.toList, .equals] true rest :=
    (Leads.blanks gap).append key
  have named : Leads true (n.toList ++ ' ' :: (k.toList ++ ['=']))
      [.name n.toList, .name k.toList, .equals] true rest :=
    (Leads.name element rfl).append spaced
  refine (Leads.openTag ?_).append named
  intro slash
  cases h : n.toList with
  | nil => simp [h, isName] at element
  | cons c cs =>
    rw [h] at element slash
    simp only [isName, Bool.and_eq_true] at element
    obtain rfl : c = '/' := by simpa using slash
    exact absurd element.1 (by decide)

theorem selfClosing_single (v : PropertyValue) :
    Element.selfClosing ⟨n, [.named k v]⟩ =
      ('<' :: (n.toList ++ ' ' :: (k.toList ++ ['=']))) ++ (v.render ++ [' ', '/', '>']) := by
  simp [Element.selfClosing, Element.propertiesInline, Property.render]

theorem advances_end : Advances true [' ', '/', '>'] [.selfClose] false [] := by
  have gap : ∀ d ∈ [' '], isLayoutBlank d = true := List.forall_mem_singleton.2 rfl
  exact (Advances.blanks gap).append Advances.selfClose

theorem tokensOf_selfClosing (element : isName n.toList = true) (property : isName k.toList = true)
    {v : PropertyValue} (closed : v.isClosed = true) :
    tokensOf (Element.selfClosing ⟨n, [.named k v]⟩) =
      .ok (valueLead n k ++ [v.token, .selfClose]) := by
  have whole := (leads_value element property _).advances.append
    ((PropertyValue.advances closed _).append advances_end)
  obtain ⟨ps, stop, tokens, go⟩ := whole 0
  have scanned := go [] (by simp [scanFrom])
  rw [List.append_nil, List.append_nil, ← selfClosing_single] at scanned
  exact tokensOf_eq_ok.2 ⟨ps, scanned, tokens⟩

end Values

/-! ### Expressions -/

section Expressions

variable {n k : String}

theorem pos_of_expressionLength? {s : BraceScan} {cs : List Char} {i : Nat}
    (h : expressionLength? s cs = some i) : 0 < i := by
  cases cs with
  | nil => simp [expressionLength?] at h
  | cons c cs =>
    rw [expressionLength?] at h
    split at h
    · obtain rfl := Option.some.inj h
      exact Nat.one_pos
    · obtain ⟨j, -, rfl⟩ := Option.map_eq_some_iff.1 h
      exact Nat.succ_pos j

theorem depth_step_brace {s : BraceScan} (opened : s.depth ≠ 0)
    (h : (s.step '\x7d').depth = 0) : s.depth = 1 ∧ s.quote = none := by
  cases quote : s.quote with
  | none =>
    simp only [BraceScan.step, quote] at h
    have : s.depth - 1 = 0 := h
    exact ⟨by omega, rfl⟩
  | some q =>
    have same : (s.step '\x7d').depth = s.depth := by
      simp only [BraceScan.step, quote]
      split
      · rfl
      · split
        · rfl
        · split <;> rfl
    exact absurd (same.symm.trans h) opened

theorem balancedFrom_of_expressionLength? {s : BraceScan} (opened : s.depth ≠ 0)
    {cs rest : List Char}
    (h : expressionLength? s (cs ++ '\x7d' :: rest) = some (cs.length + 1)) :
    balancedFrom s cs = true := by
  induction cs generalizing s with
  | nil =>
    rw [List.nil_append, expressionLength?] at h
    split at h
    · rename_i closes
      obtain ⟨depth, quote⟩ := depth_step_brace opened closes
      simp [balancedFrom, depth, quote]
    · obtain ⟨j, later, last⟩ := Option.map_eq_some_iff.1 h
      have := pos_of_expressionLength? later
      simp only [List.length_nil] at last
      omega
  | cons c cs ih =>
    rw [List.cons_append, expressionLength?] at h
    split at h
    · simp at h
    · rename_i open'
      obtain ⟨j, later, last⟩ := Option.map_eq_some_iff.1 h
      obtain rfl : j = cs.length + 1 := by simpa using last
      simp [balancedFrom, open', ih open' later]

theorem exists_of_scanFrom_brace {offset : Nat} {rest : List Char} {ps : List Placed}
    (h : scanFrom true offset ('\x7b' :: rest) = .ok ps) :
    ∃ i, expressionLength? {} rest = some i ∧
      (ps.map Placed.token).head? = some (.expression (rest.take (i - 1))) := by
  rw [scanFrom] at h
  cases length : expressionLength? {} rest with
  | none => simp [isLayoutBlank, tagToken?, isNameStart, length] at h
  | some i =>
    refine ⟨i, rfl, ?_⟩
    have token : tagToken? '\x7b' rest = some (.expression (rest.take (i - 1)), i) := by
      simp [tagToken?, isNameStart, length]
    rw [if_pos rfl, if_neg (by decide), token] at h
    obtain ⟨qs, -, rfl⟩ := map_eq_ok.1 h
    rfl

/-- An expression scans to a single token that holds it exactly when it is balanced. -/
theorem tokensOf_expression_iff (element : isName n.toList = true)
    (property : isName k.toList = true) (s : String) :
    tokensOf (Element.selfClosing ⟨n, [.named k (.expression s)]⟩) =
      .ok (valueLead n k ++ [.expression s.toList, .selfClose]) ↔ isBalanced s.toList = true := by
  constructor
  · intro h
    obtain ⟨all, scanned, tokens⟩ := tokensOf_eq_ok.1 h
    obtain ⟨ps, stop, lead, go⟩ := leads_value element property
      ((PropertyValue.expression s).render ++ [' ', '/', '>']) 0
    rw [selfClosing_single, go] at scanned
    obtain ⟨qs, value, rfl⟩ := map_eq_ok.1 scanned
    rw [List.map_append, lead, List.append_cancel_left_eq] at tokens
    have split : (PropertyValue.expression s).render ++ [' ', '/', '>'] =
        '\x7b' :: (s.toList ++ '\x7d' :: [' ', '/', '>']) := by simp [PropertyValue.render]
    rw [split] at value
    obtain ⟨i, length, first⟩ := exists_of_scanFrom_brace value
    rw [tokens] at first
    -- the token holds the characters up to the brace that closes the first one
    have held : s.toList = (s.toList ++ '\x7d' :: [' ', '/', '>']).take (i - 1) := by
      simpa using first
    have reach : i = s.toList.length + 1 := by
      have := congrArg List.length held
      have := pos_of_expressionLength? length
      simp only [List.length_take, List.length_append, List.length_cons, List.length_nil] at *
      omega
    rw [reach] at length
    exact balancedFrom_of_expressionLength? (by decide) length
  · exact fun closed => tokensOf_selfClosing (v := .expression s) element property closed

end Expressions

/-! ### Texts -/

theorem escapeTextChar_cases (c : Char) :
    (∃ x, escapeTextChar c = ['\\', x] ∧ (x, c) ∈ Reads.escapes) ∨
      (escapeTextChar c = [c] ∧ c ≠ '<' ∧ c ≠ '\\') := by
  unfold escapeTextChar
  split
  · exact .inl ⟨_, rfl, by decide⟩
  · exact .inl ⟨_, rfl, by decide⟩
  · exact .inl ⟨_, rfl, by decide⟩
  · exact .inl ⟨_, rfl, by decide⟩
  · exact .inr ⟨rfl, by assumption, by assumption⟩

theorem escapeText_cons (c : Char) (s : List Char) :
    escapeText (c :: s) = escapeTextChar c ++ escapeText s := rfl

theorem exists_escapeText_run {p : Char → Bool} (stops : p '\\' = false) (s : List Char) :
    ∃ run rest, s = run ++ rest ∧ (escapeText s).takeWhile p = run ∧
      escapeText s = run ++ escapeText rest := by
  induction s with
  | nil => exact ⟨[], [], rfl, rfl, rfl⟩
  | cons c s ih =>
    rw [escapeText_cons]
    rcases escapeTextChar_cases c with ⟨x, written, -⟩ | ⟨written, -⟩
    · refine ⟨[], c :: s, rfl, ?_, rfl⟩
      simp [written, stops]
    · rw [written, List.singleton_append]
      cases hc : p c with
      | false =>
        refine ⟨[], c :: s, rfl, by simp [hc], ?_⟩
        rw [List.nil_append, escapeText_cons, written, List.singleton_append]
      | true =>
        obtain ⟨run, rest, split, taken, left⟩ := ih
        refine ⟨c :: run, rest, by rw [split, List.cons_append], ?_, by rw [left, List.cons_append]⟩
        rw [List.takeWhile_cons_of_pos hc, taken]

/-- Tokens that are all of text, and whose characters are these. -/
def Says (ts : List Token) (s : List Char) : Prop :=
  ∃ texts : List (List (Char × Bool)),
    ts.map Token.text? = texts.map some ∧ texts.flatten.map Prod.fst = s

theorem Says.cons {t : Token} {text : List (Char × Bool)} {ts : List Token} {s : List Char}
    (own : t.text? = some text) (rest : Says ts s) : Says (t :: ts) (text.map Prod.fst ++ s) := by
  obtain ⟨texts, said, rfl⟩ := rest
  refine ⟨text :: texts, by rw [List.map_cons, List.map_cons, own, said], ?_⟩
  rw [List.flatten_cons, List.map_append]

/-- An escaped text scans to tokens that say the text: each is an escape, or takes a word or a run
of blanks of the text. -/
theorem exists_scanFrom_escapeText (s : List Char) (offset : Nat) :
    ∃ ps, scanFrom false offset (escapeText s) = .ok ps ∧ Says (ps.map Placed.token) s := by
  induction len : s.length using Nat.strongRecOn generalizing s offset with
  | ind len ih =>
    subst len
    cases s with
    | nil => exact ⟨[], by simp [escapeText, scanFrom], [], rfl, rfl⟩
    | cons c s =>
      rw [escapeText_cons]
      rcases escapeTextChar_cases c with ⟨x, written, escape⟩ | ⟨written, plain⟩
      · obtain ⟨ps, scanned, said⟩ :=
          ih s.length (by simp) s (offset + byteLength ['\\', x]) rfl
        rw [written, List.cons_append, List.singleton_append, Reads.scanFrom_escaped escape,
          scanned]
        exact ⟨_, rfl, said.cons (t := .escape c) rfl⟩
      · obtain ⟨t, text, step⟩ := scanFrom_plain plain offset (escapeText s)
        obtain ⟨run, rest, rfl, taken, left⟩ :=
          exists_escapeText_run (p := if isLayoutBlank c then isLayoutBlank else isWordChar)
            (by split <;> rfl) s
        have here : restOfRun c (escapeText (run ++ rest)) = run := taken
        rw [here] at text step
        have shorter : rest.length < (c :: (run ++ rest)).length := by
          rw [List.length_cons, List.length_append]
          omega
        obtain ⟨ps, scanned, said⟩ :=
          ih rest.length shorter rest (offset + byteLength (c :: run)) rfl
        rw [written, List.singleton_append, step, left, List.drop_left, scanned]
        refine ⟨_, rfl, ?_⟩
        have whole := said.cons text
        rwa [List.map_map, Function.comp_def, List.map_id', List.cons_append] at whole

/-! ### Inverses -/

/-- Scanning undoes escaping. As the value of the single property of an element any string, written
as a key or as a literal, is a single token that stands for it; as an expression it is a single
token that holds it exactly when it is balanced. As a text it scans to words, blanks and escapes
that say it. -/
theorem tokensOf_written {n k : String} (element : isName n.toList = true)
    (property : isName k.toList = true) (s : String) :
    (∃ raw, tokensOf (Element.selfClosing ⟨n, [.named k (.key s)]⟩) =
        .ok [.openTag, .name n.toList, .name k.toList, .equals, .key raw, .selfClose] ∧
      unescapeDelimited raw = s.toList) ∧
    (∃ raw, tokensOf (Element.selfClosing ⟨n, [.named k (.literal s)]⟩) =
        .ok [.openTag, .name n.toList, .name k.toList, .equals, .literal raw, .selfClose] ∧
      unescapeDelimited raw = s.toList) ∧
    (∃ ts, tokensOf (escapeText s.toList) = .ok ts ∧ Says ts s.toList) ∧
    (tokensOf (Element.selfClosing ⟨n, [.named k (.expression s)]⟩) =
        .ok [.openTag, .name n.toList, .name k.toList, .equals, .expression s.toList, .selfClose] ↔
      isBalanced s.toList = true) := by
  refine ⟨⟨_, tokensOf_selfClosing (v := .key s) element property rfl, ?_⟩,
    ⟨_, tokensOf_selfClosing (v := .literal s) element property rfl, ?_⟩, ?_,
    tokensOf_expression_iff element property s⟩
  · rw [unescapeDelimited_eq rfl rfl, unescape_escapeKey]
  · rw [unescapeDelimited_eq rfl rfl, unescape_escapeLiteral]
  · obtain ⟨ps, scanned, said⟩ := exists_scanFrom_escapeText s.toList 0
    exact ⟨_, tokensOf_eq_ok.2 ⟨ps, scanned, rfl⟩, said⟩

/-- A key of closing delimiters, backslashes, a line break and a brace that nothing closes. -/
def oddKey : String := "a) \\n \" \n < > '\x7b' \x7b \\"

theorem tokensOf_written_oddKey :
    (isName "Room".toList = true ∧ isName "key".toList = true) ∧
    (∃ raw, tokensOf (Element.selfClosing ⟨"Room", [.named "key" (.key oddKey)]⟩) =
        .ok [.openTag, .name "Room".toList, .name "key".toList, .equals, .key raw, .selfClose] ∧
      unescapeDelimited raw = oddKey.toList) ∧
    (∃ raw, tokensOf (Element.selfClosing ⟨"Room", [.named "key" (.literal oddKey)]⟩) =
        .ok [.openTag, .name "Room".toList, .name "key".toList, .equals, .literal raw,
          .selfClose] ∧
      unescapeDelimited raw = oddKey.toList) ∧
    (∃ ts, tokensOf (escapeText oddKey.toList) = .ok ts ∧ Says ts oddKey.toList) ∧
    (tokensOf (Element.selfClosing ⟨"Room", [.named "key" (.expression oddKey)]⟩) =
        .ok [.openTag, .name "Room".toList, .name "key".toList, .equals,
          .expression oddKey.toList, .selfClose] ↔
      isBalanced oddKey.toList = true) :=
  ⟨⟨by decide, by decide⟩, tokensOf_written (by decide) (by decide) oddKey⟩

/-- A brace in a literal needs no partner, and one outside needs one. -/
example : isBalanced "a == '\x7b' && b".toList = true ∧ isBalanced oddKey.toList = false := by
  decide

end WorldMarkup.Markup
