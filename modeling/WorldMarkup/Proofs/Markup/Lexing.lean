import WorldMarkup.Markup.Event
import WorldMarkup.Markup.Scan

/-!
Scanning what elements write. Every piece of a tag scans to its own tokens whatever comes after
it: names, values between each of the three sorts of delimiters, blanks and the signs that begin
and end tags.
-/

set_option autoImplicit false
set_option relaxedAutoImplicit false

namespace WorldMarkup.Markup

/-- Scanning `cs` in front of `rest` puts the tokens `ts` in front of what scanning `rest` gives,
wherever `cs` stands. -/
def Leads (inside : Bool) (cs : List Char) (ts : List Token) (inside' : Bool)
    (rest : List Char) : Prop :=
  ∀ offset, ∃ ps stop, ps.map Placed.token = ts ∧
    scanFrom inside offset (cs ++ rest) = (scanFrom inside' stop rest).map (ps ++ ·)

/-- Scanning `cs` in front of `rest` gives the tokens `ts` and goes on with `rest`, wherever `cs`
stands. -/
def Advances (inside : Bool) (cs : List Char) (ts : List Token) (inside' : Bool)
    (rest : List Char) : Prop :=
  ∀ offset, ∃ ps stop, ps.map Placed.token = ts ∧ ∀ qs, scanFrom inside' stop rest = .ok qs →
    scanFrom inside offset (cs ++ rest) = .ok (ps ++ qs)

namespace Leads

variable {a b c : Bool} {cs cs' rest : List Char} {ts ts' : List Token}

theorem advances (h : Leads a cs ts b rest) : Advances a cs ts b rest := by
  intro offset
  obtain ⟨ps, stop, hp, go⟩ := h offset
  refine ⟨ps, stop, hp, fun qs hq => ?_⟩
  rw [go, hq]
  rfl

theorem append (h : Leads a cs ts b (cs' ++ rest)) (h' : Leads b cs' ts' c rest) :
    Leads a (cs ++ cs') (ts ++ ts') c rest := by
  intro offset
  obtain ⟨ps, middle, hp, go⟩ := h offset
  obtain ⟨ps', stop, hp', go'⟩ := h' middle
  refine ⟨ps ++ ps', stop, by simp [hp, hp'], ?_⟩
  rw [List.append_assoc, go, go']
  cases scanFrom c stop rest with
  | error e => rfl
  | ok qs => simp [Except.map]

theorem single {d : Char} {more : List Char} {t : Token} (blank : isLayoutBlank d = false)
    (h : tagToken? d (more ++ rest) = some (t, more.length)) :
    Leads true (d :: more) [t] (!t.endsTag) rest := by
  intro offset
  refine ⟨[⟨t, offset, offset + byteLength (d :: more)⟩], offset + byteLength (d :: more), rfl, ?_⟩
  rw [List.cons_append, scanFrom]
  simp [blank, h]

theorem blanks (h : ∀ d ∈ cs, isLayoutBlank d = true) : Leads true cs [] true rest := by
  induction cs with
  | nil =>
    intro offset
    refine ⟨[], offset, rfl, ?_⟩
    show scanFrom true offset rest = _
    cases scanFrom true offset rest <;> rfl
  | cons d cs ih =>
    intro offset
    obtain ⟨ps, stop, hp, go⟩ := ih (fun x hx => h x (by simp [hx])) (offset + 1)
    refine ⟨ps, stop, hp, ?_⟩
    rw [List.cons_append, scanFrom]
    simpa [h d (by simp)] using go

theorem openTag (h : rest.head? ≠ some '/') : Leads false ['<'] [.openTag] true rest := by
  intro offset
  refine ⟨[⟨.openTag, offset, offset + byteLength ['<']⟩], offset + byteLength ['<'], rfl, ?_⟩
  rw [List.cons_append, scanFrom]
  simp [textToken, h, Token.beginsTag]

end Leads

namespace Advances

variable {a b c : Bool} {cs cs' rest : List Char} {ts ts' : List Token}

theorem append (h : Advances a cs ts b (cs' ++ rest)) (h' : Advances b cs' ts' c rest) :
    Advances a (cs ++ cs') (ts ++ ts') c rest := by
  intro offset
  obtain ⟨ps, middle, hp, go⟩ := h offset
  obtain ⟨ps', stop, hp', go'⟩ := h' middle
  refine ⟨ps ++ ps', stop, by simp [hp, hp'], fun qs hq => ?_⟩
  rw [List.append_assoc, List.append_assoc]
  exact go _ (go' _ hq)

theorem single {d : Char} {more : List Char} {t : Token} (blank : isLayoutBlank d = false)
    (h : tagToken? d (more ++ rest) = some (t, more.length)) :
    Advances true (d :: more) [t] (!t.endsTag) rest :=
  (Leads.single blank h).advances

theorem blanks (h : ∀ d ∈ cs, isLayoutBlank d = true) : Advances true cs [] true rest :=
  (Leads.blanks h).advances

end Advances

/-- A name: a letter or an underscore, then letters, digits and underscores. -/
def isName (n : List Char) : Bool :=
  match n with
  | [] => false
  | c :: cs => isNameStart c && cs.all isNameChar

theorem isLayoutBlank_of_isNameStart {c : Char} (h : isNameStart c = true) :
    isLayoutBlank c = false := by
  simp only [isLayoutBlank, Bool.or_eq_false_iff, beq_eq_false_iff_ne]
  refine ⟨⟨⟨?_, ?_⟩, ?_⟩, ?_⟩ <;> rintro rfl <;> exact absurd h (by decide)

theorem takeWhile_append_of_head? {α : Type} (p : α → Bool) {xs ys : List α}
    (hx : xs.all p = true) (hy : ys.head?.all (fun y => !p y) = true) :
    (xs ++ ys).takeWhile p = xs := by
  rw [List.takeWhile_append_of_pos (by simpa using hx)]
  cases ys with
  | nil => simp
  | cons y ys => simp_all

namespace Leads

variable {rest : List Char}

theorem name {n : List Char} (h : isName n = true)
    (stops : rest.head?.all (fun c => !isNameChar c) = true) :
    Leads true n [.name n] true rest := by
  cases n with
  | nil => simp [isName] at h
  | cons c cs =>
    simp only [isName, Bool.and_eq_true] at h
    refine single (isLayoutBlank_of_isNameStart h.1) ?_
    simp [tagToken?, h.1, takeWhile_append_of_head? isNameChar h.2 stops]

theorem equals : Leads true ['='] [.equals] true rest :=
  single (by decide) (by simp [tagToken?, isNameStart])

end Leads

namespace Advances

variable {rest : List Char}

theorem name {n : List Char} (h : isName n = true)
    (stops : rest.head?.all (fun c => !isNameChar c) = true) :
    Advances true n [.name n] true rest :=
  (Leads.name h stops).advances

theorem equals : Advances true ['='] [.equals] true rest := Leads.equals.advances

theorem tagEnd : Advances true ['>'] [.tagEnd] false rest :=
  single (by decide) (by simp [tagToken?, isNameStart])

theorem selfClose : Advances true ['/', '>'] [.selfClose] false rest :=
  single (by decide) (by simp [tagToken?, isNameStart])

theorem openTag (h : rest.head? ≠ some '/') : Advances false ['<'] [.openTag] true rest :=
  (Leads.openTag h).advances

theorem openClosing : Advances false ['<', '/'] [.openClosing] true rest := by
  intro offset
  refine ⟨[⟨.openClosing, offset, offset + byteLength ['<', '/']⟩],
    offset + byteLength ['<', '/'], rfl, fun qs hq => ?_⟩
  rw [List.cons_append, scanFrom]
  simp [textToken, Token.beginsTag, hq, Except.map]

end Advances

/-! ### Values -/

theorem delimitedLength?_close (close : Char) (rest : List Char) (h : close ≠ '\\') :
    delimitedLength? close (close :: rest) = some 1 := by
  rw [delimitedLength?.eq_def]
  simp [h]

theorem delimitedLength?_pair {close d : Char} (rest : List Char) (h : d ≠ '\n') :
    delimitedLength? close ('\\' :: d :: rest) = (delimitedLength? close rest).map (· + 2) := by
  rw [delimitedLength?]
  simp [h]

theorem delimitedLength?_plain {close c : Char} (rest : List Char) (h : c ≠ '\\')
    (h' : c ≠ close) :
    delimitedLength? close (c :: rest) = (delimitedLength? close rest).map (· + 1) := by
  rw [delimitedLength?.eq_def]
  simp [h, h']

theorem unescape_plain {c : Char} (rest : List Char) (h : c ≠ '\\') :
    unescape (c :: rest) = c :: unescape rest := by
  rw [unescape] <;> simp [h]

theorem escapeKeyChar_cases (c : Char) :
    (escapeKeyChar c = ['\\', c] ∧ c ≠ '\n' ∧ c ≠ 'n') ∨
      (escapeKeyChar c = [c] ∧ c ≠ '\\' ∧ c ≠ ')') := by
  unfold escapeKeyChar
  split <;> simp_all

theorem escapeLiteralChar_cases (c : Char) :
    (∃ d, escapeLiteralChar c = ['\\', d] ∧ d ≠ '\n' ∧
        ∀ rest, unescape ('\\' :: d :: rest) = c :: unescape rest) ∨
      (escapeLiteralChar c = [c] ∧ c ≠ '\\' ∧ c ≠ '"') := by
  unfold escapeLiteralChar
  split
  · exact .inl ⟨_, rfl, by decide, fun rest => by simp [unescape]⟩
  · exact .inl ⟨_, rfl, by decide, fun rest => by simp [unescape]⟩
  · exact .inl ⟨_, rfl, by decide, fun rest => by simp [unescape]⟩
  · exact .inr ⟨rfl, by assumption, by assumption⟩

theorem escapeKey_cons (c : Char) (s : List Char) :
    escapeKey (c :: s) = escapeKeyChar c ++ escapeKey s := rfl

theorem escapeLiteral_cons (c : Char) (s : List Char) :
    escapeLiteral (c :: s) = escapeLiteralChar c ++ escapeLiteral s := rfl

theorem delimitedLength?_escapeKey (s rest : List Char) :
    delimitedLength? ')' (escapeKey s ++ ')' :: rest) = some ((escapeKey s).length + 1) := by
  induction s with
  | nil => exact delimitedLength?_close ')' rest (by decide)
  | cons c s ih =>
    rw [escapeKey_cons]
    rcases escapeKeyChar_cases c with ⟨h, hn, _⟩ | ⟨h, hb, hc⟩
    · simp [h, delimitedLength?_pair _ hn, ih]
    · simp [h, delimitedLength?_plain _ hb hc, ih]

theorem delimitedLength?_escapeLiteral (s rest : List Char) :
    delimitedLength? '"' (escapeLiteral s ++ '"' :: rest) =
      some ((escapeLiteral s).length + 1) := by
  induction s with
  | nil => exact delimitedLength?_close '"' rest (by decide)
  | cons c s ih =>
    rw [escapeLiteral_cons]
    rcases escapeLiteralChar_cases c with ⟨d, h, hn, _⟩ | ⟨h, hb, hc⟩
    · simp [h, delimitedLength?_pair _ hn, ih]
    · simp [h, delimitedLength?_plain _ hb hc, ih]

theorem unescape_escapeKey (s : List Char) : unescape (escapeKey s) = s := by
  induction s with
  | nil => simp [escapeKey, unescape]
  | cons c s ih =>
    rw [escapeKey_cons]
    rcases escapeKeyChar_cases c with ⟨h, _, hn⟩ | ⟨h, hb, _⟩
    · have : unescape ('\\' :: c :: escapeKey s) = c :: unescape (escapeKey s) := by
        rw [unescape]
        simp [hn]
      simp [h, this, ih]
    · simp [h, unescape_plain _ hb, ih]

theorem unescape_escapeLiteral (s : List Char) : unescape (escapeLiteral s) = s := by
  induction s with
  | nil => simp [escapeLiteral, unescape]
  | cons c s ih =>
    rw [escapeLiteral_cons]
    rcases escapeLiteralChar_cases c with ⟨d, h, _, hu⟩ | ⟨h, hb, _⟩
    · simp [h, hu, ih]
    · simp [h, unescape_plain _ hb, ih]

theorem unescapeDelimited_eq {c d : Char} (hc : c.utf8Size = 1) (hd : d.utf8Size = 1)
    (cs : List Char) : unescapeDelimited (c :: (cs ++ [d])) = unescape cs := by
  simp [unescapeDelimited, insideDelimiters, hc, hd]

/-- Whether a scan that has come so far ends, after these characters, with one brace open and
outside of any literal, and never comes to where no brace is open. -/
def balancedFrom (s : BraceScan) : List Char → Bool
  | [] => s.depth == 1 && s.quote.isNone
  | c :: rest => (s.step c).depth != 0 && balancedFrom (s.step c) rest

/-- Whether braces outside of literals close each other, so that an expression ends where the
brace in front of it is closed. -/
def isBalanced (cs : List Char) : Bool := balancedFrom {} cs

theorem expressionLength?_balanced {s : BraceScan} {cs : List Char} (rest : List Char)
    (h : balancedFrom s cs = true) :
    expressionLength? s (cs ++ '\x7d' :: rest) = some (cs.length + 1) := by
  induction cs generalizing s with
  | nil =>
    simp only [balancedFrom, Bool.and_eq_true, beq_iff_eq, Option.isNone_iff_eq_none] at h
    simp [expressionLength?, BraceScan.step, h.1, h.2]
  | cons c cs ih =>
    simp only [balancedFrom, Bool.and_eq_true, bne_iff_ne, ne_eq] at h
    simp [expressionLength?, h.1, ih h.2]

end Markup

open Markup

/-- The token of a value. -/
def PropertyValue.token : PropertyValue → Token
  | .key s => .key ('(' :: (escapeKey s.toList ++ [')']))
  | .literal s => .literal ('"' :: (escapeLiteral s.toList ++ ['"']))
  | .expression s => .expression s.toList

def PropertyValue.value : PropertyValue → String
  | .key s | .literal s | .expression s => s

/-- Whether the value ends where its closing delimiter stands: expressions are written as they
are, so their braces have to match. -/
def PropertyValue.isClosed : PropertyValue → Bool
  | .expression s => isBalanced s.toList
  | _ => true

theorem PropertyValue.advances {v : PropertyValue} (closed : v.isClosed = true)
    (rest : List Char) : Advances true v.render [v.token] true rest := by
  cases v with
  | key s =>
    refine Advances.single (by decide) ?_
    simp [tagToken?, isNameStart, delimitedLength?_escapeKey, List.take_append,
      List.take_of_length_le, token]
  | literal s =>
    refine Advances.single (by decide) ?_
    simp [tagToken?, isNameStart, delimitedLength?_escapeLiteral, List.take_append,
      List.take_of_length_le, token]
  | expression s =>
    refine Advances.single (by decide) ?_
    have h := expressionLength?_balanced rest closed
    simp [tagToken?, isNameStart, h, List.take_append, token]

theorem PropertyValue.readValue_token (v : PropertyValue) (start stop : Nat) :
    readValue [⟨v.token, start, stop⟩] = .ok (v.value, []) := by
  cases v with
  | key s =>
    simp [token, readValue, value, unescapeDelimited_eq (c := '(') (d := ')') rfl rfl,
      unescape_escapeKey]
  | literal s =>
    simp [token, readValue, value, unescapeDelimited_eq (c := '"') (d := '"') rfl rfl,
      unescape_escapeLiteral]
  | expression s => simp [token, readValue, value]

end WorldMarkup
