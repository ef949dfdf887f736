import WorldMarkup.Markup.Element
import WorldMarkup.Markup.Token

/-!
A written document as a series of events: runs of text, opening tags with their attributes, and
closing tags. A tag that cannot be read ends the series.
-/

set_option autoImplicit false
set_option relaxedAutoImplicit false

namespace WorldMarkup.Markup

/-- What an opening tag gives beside its name: attributes by name, delimiters off, and the bare
expression. -/
structure Attributes where
  named : List (String × String) := []
  bare : Option String := none
  deriving DecidableEq

/-- The value of an attribute; of several of one name the first counts. -/
def Attributes.get? (a : Attributes) (name : String) : Option String :=
  (a.named.find? (fun x => x.1 == name)).map Prod.snd

inductive Event
  /-- Characters between tags, each with whether it was escaped. -/
  | text (chars : List (Char × Bool)) (offset : Nat)
  | opening (name : String) (attributes : Attributes) (selfClosing : Bool) (offset : Nat)
  | closing (name : String) (offset : Nat)
  /-- A tag that cannot be read. -/
  | fault (error : ReadError)

def unexpected (expected : String) : List Placed → ReadError
  | [] => .unexpectedEnd
  | p :: _ => .unexpectedToken expected p.token p.start

/-- The value of an attribute, and the tokens after it. -/
def readValue : List Placed → Except ReadError (String × List Placed)
  | ⟨.key raw, _, _⟩ :: rest | ⟨.literal raw, _, _⟩ :: rest =>
    .ok (String.ofList (unescapeDelimited raw), rest)
  | ⟨.expression cs, _, _⟩ :: rest => .ok (String.ofList cs, rest)
  | ps => .error (unexpected "an attribute value" ps)

/-- The attributes up to the end of the tag, added to those read before; whether the tag closes
itself; and the tokens after it. -/
def readAttributes (a : Attributes) :
    List Placed → Except ReadError (Attributes × Bool × List Placed)
  | [] => .error .unexpectedEnd
  | ⟨.tagEnd, _, _⟩ :: rest => .ok (a, false, rest)
  | ⟨.selfClose, _, _⟩ :: rest => .ok (a, true, rest)
  | ⟨.expression cs, _, _⟩ :: rest =>
    readAttributes { a with bare := some (String.ofList cs) } rest
  | ⟨.name n, _, _⟩ :: ⟨.equals, _, _⟩ :: value :: rest =>
    match readValue [value] with
    | .ok (s, _) => readAttributes { a with named := a.named ++ [(String.ofList n, s)] } rest
    | .error e => .error e
  | [⟨.name _, _, _⟩, ⟨.equals, _, _⟩] => .error .unexpectedEnd
  | ⟨.name _, _, _⟩ :: rest => .error (unexpected "'='" rest)
  | ps => .error (unexpected "an attribute, '>' or '/>'" ps)

theorem readAttributes_shorter (a : Attributes) (ps : List Placed) {b : Attributes} {closes : Bool}
    {rest : List Placed} (h : readAttributes a ps = .ok (b, closes, rest)) :
    rest.length < ps.length := by
  fun_induction readAttributes a ps with
  | case1 => simp at h
  | case2 => simp only [Except.ok.injEq, Prod.mk.injEq] at h; simp [← h.2.2]
  | case3 => simp only [Except.ok.injEq, Prod.mk.injEq] at h; simp [← h.2.2]
  | case4 _ _ _ _ _ ih => have := ih h; simp only [List.length_cons]; omega
  | case5 _ _ _ _ _ _ _ _ _ _ _ ih => have := ih h; simp only [List.length_cons]; omega
  | case6 => simp at h
  | case7 => simp at h
  | case8 => simp at h
  | case9 => simp at h

/-- The event of a tag whose first sign stands at `offset`, from the tokens after that sign; and
the tokens after the tag. -/
def openingEvent (offset : Nat) (ps : List Placed) : Event × List Placed :=
  match ps with
  | ⟨.name n, _, _⟩ :: rest =>
    match readAttributes {} rest with
    | .ok (a, selfClosing, rest) => (.opening (String.ofList n) a selfClosing offset, rest)
    | .error e => (.fault e, [])
  | ps => (.fault (unexpected "an element name" ps), [])

/-- The event of a closing tag, likewise. -/
def closingEvent (offset : Nat) (ps : List Placed) : Event × List Placed :=
  match ps with
  | ⟨.name n, _, _⟩ :: ⟨.tagEnd, _, _⟩ :: rest => (.closing (String.ofList n) offset, rest)
  | ⟨.name _, _, _⟩ :: rest => (.fault (unexpected "'>'" rest), [])
  | ps => (.fault (unexpected "an element name" ps), [])

theorem openingEvent_shorter (offset : Nat) (ps : List Placed) :
    (openingEvent offset ps).2.length ≤ ps.length := by
  unfold openingEvent
  split
  · split
    · rename_i h
      have := readAttributes_shorter _ _ h
      simp only [List.length_cons]
      omega
    · simp
  · simp

theorem closingEvent_shorter (offset : Nat) (ps : List Placed) :
    (closingEvent offset ps).2.length ≤ ps.length := by
  unfold closingEvent
  split <;> simp +arith

/-- Put a run of text in front of events, together with the run that they may start with. -/
def Event.consText (cs : List (Char × Bool)) (offset : Nat) : List Event → List Event
  | .text more _ :: rest => .text (cs ++ more) offset :: rest
  | events => .text cs offset :: events

/-- The events of a series of tokens. -/
def Event.ofTokens (ps : List Placed) : List Event :=
  match ps with
  | [] => []
  | ⟨token, start, _⟩ :: rest =>
    match token.text? with
    | some cs => consText cs start (ofTokens rest)
    | none =>
      match token with
      | .openTag =>
        have := openingEvent_shorter start rest
        (openingEvent start rest).1 :: ofTokens (openingEvent start rest).2
      | .openClosing =>
        have := closingEvent_shorter start rest
        (closingEvent start rest).1 :: ofTokens (closingEvent start rest).2
      | _ => [.fault (unexpected "'<' or '</'" ps)]
termination_by ps.length

end WorldMarkup.Markup
