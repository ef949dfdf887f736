import WorldMarkup.Proofs.Markup.Lexing

/-!
What a written document says, without its offsets: single characters of text and whole tags.
Main statement: a text put together from spelled characters and spelled tags scans to events that
say just that. A line break in a spelling is layout only, so blanks may be put in after it.
-/

set_option autoImplicit false
set_option relaxedAutoImplicit false

namespace WorldMarkup

open Markup

/-! ### Properties and opening tags -/

def Markup.Attributes.note (a : Attributes) : Property → Attributes
  | .condition s => { a with bare := some s }
  | .named n v => { a with named := a.named ++ [(n, v.value)] }

def Markup.Attributes.ofProperties (ps : List Property) : Attributes := ps.foldl Attributes.note {}

namespace Property

def tokens : Property → List Token
  | .condition s => [.expression s.toList]
  | .named n v => [.name n.toList, .equals, v.token]

def isReadable : Property → Bool
  | .condition s => isBalanced s.toList
  | .named n v => isName n.toList && v.isClosed

theorem advances {p : Property} (readable : p.isReadable = true) (rest : List Char) :
    Advances true p.render p.tokens true rest := by
  cases p with
  | condition s => exact PropertyValue.advances (v := .expression s) readable rest
  | named n v =>
    simp only [isReadable, Bool.and_eq_true] at readable
    have value : Advances true ('=' :: v.render) [.equals, v.token] true rest :=
      Advances.equals.append (PropertyValue.advances readable.2 rest)
    exact (Advances.name readable.1 (by simp; decide)).append value

end Property

namespace Markup

def endSign (selfClosing : Bool) : List Char := if selfClosing then ['/', '>'] else ['>']

def endToken (selfClosing : Bool) : Token := if selfClosing then .selfClose else .tagEnd

/-- What may follow the name in an opening tag: blanks and a property again and again, then blanks
and the sign that ends the tag. -/
inductive TagTail (selfClosing : Bool) : List Property → List Char → Prop
  | done {bs : List Char} (blank : bs.all isLayoutBlank = true) :
      TagTail selfClosing [] (bs ++ endSign selfClosing)
  | property {bs cs : List Char} {p : Property} {ps : List Property} (ne : bs ≠ [])
      (blank : bs.all isLayoutBlank = true) (tail : TagTail selfClosing ps cs) :
      TagTail selfClosing (p :: ps) (bs ++ (p.render ++ cs))

theorem isNameChar_of_isLayoutBlank {c : Char} (h : isLayoutBlank c = true) :
    isNameChar c = false := by
  simp only [isLayoutBlank, Bool.or_eq_true, beq_iff_eq] at h
  rcases h with ((rfl | rfl) | rfl) | rfl <;> decide

namespace TagTail

variable {selfClosing : Bool} {ps : List Property} {cs : List Char}

theorem stopsName (h : TagTail selfClosing ps cs) (rest : List Char) :
    ((cs ++ rest).head?.all fun c => !isNameChar c) = true := by
  cases h with
  | @done bs blank =>
    cases bs with
    | nil => cases selfClosing <;> simp [endSign] <;> decide
    | cons b bs =>
      simp only [List.all_cons, Bool.and_eq_true] at blank
      simp [isNameChar_of_isLayoutBlank blank.1]
  | @property bs cs p ps ne blank tail =>
    cases bs with
    | nil => exact absurd rfl ne
    | cons b bs =>
      simp only [List.all_cons, Bool.and_eq_true] at blank
      simp [isNameChar_of_isLayoutBlank blank.1]

theorem advances (h : TagTail selfClosing ps cs) (readable : ∀ p ∈ ps, p.isReadable = true)
    (rest : List Char) :
    Advances true cs (ps.flatMap Property.tokens ++ [endToken selfClosing]) false rest := by
  induction h with
  | done blank =>
    refine (Advances.blanks (by simpa using blank)).append ?_
    cases selfClosing
    · exact Advances.tagEnd
    · exact Advances.selfClose
  | property ne blank tail ih =>
    simp only [List.mem_cons, forall_eq_or_imp] at readable
    have := (Advances.blanks (by simpa using blank)).append
      ((Property.advances readable.1 _).append (ih readable.2))
    simpa using this

end TagTail

theorem readAttributes_tokens (props : List Property) (selfClosing : Bool) (a : Attributes)
    (ps qs : List Placed)
    (h : ps.map Placed.token = props.flatMap Property.tokens ++ [endToken selfClosing]) :
    readAttributes a (ps ++ qs) = .ok (props.foldl Attributes.note a, selfClosing, qs) := by
  induction props generalizing a ps with
  | nil =>
    obtain ⟨⟨t, i, j⟩, rfl, rfl⟩ := List.map_eq_singleton_iff.1 h
    cases selfClosing <;> simp [endToken, readAttributes]
  | cons p props ih =>
    cases p with
    | condition s =>
      simp only [List.flatMap_cons, Property.tokens, List.cons_append, List.nil_append,
        List.map_eq_cons_iff] at h
      obtain ⟨⟨t, i, j⟩, ps, rfl, rfl, hr⟩ := h
      simp only [List.cons_append, readAttributes, List.foldl_cons]
      rw [ih _ ps hr]
      simp [Attributes.note]
    | named n v =>
      simp only [List.flatMap_cons, Property.tokens, List.cons_append, List.nil_append,
        List.map_eq_cons_iff] at h
      obtain ⟨⟨t, i, j⟩, _, rfl, rfl, ⟨t', i', j'⟩, _, rfl, rfl, ⟨t'', i'', j''⟩, ps, rfl, rfl, hr⟩ := h
      simp only [List.cons_append, readAttributes, PropertyValue.readValue_token,
        List.foldl_cons]
      rw [ih _ ps hr]
      simp [Attributes.note]

/-! ### Items and events -/

/-- A part of a written document: a character of text, or a tag. -/
inductive Item
  | char (c : Char) (escaped : Bool)
  | opening (name : String) (attributes : Attributes) (selfClosing : Bool)
  | closing (name : String)

def Item.ofRun (run : List (Char × Bool)) : List Item := run.map (fun x => .char x.1 x.2)

def Item.isTag : Item → Bool
  | .char .. => false
  | _ => true

/-- Events say these items, and each run of text among them is whole. -/
inductive Tells : List Event → List Item → Prop
  | nil : Tells [] []
  | text {run : List (Char × Bool)} {offset : Nat} {es : List Event} {is : List Item}
      (ne : run ≠ []) (whole : is.head?.all Item.isTag = true) (rest : Tells es is) :
      Tells (.text run offset :: es) (Item.ofRun run ++ is)
  | opening {name : String} {a : Attributes} {selfClosing : Bool} {offset : Nat}
      {es : List Event} {is : List Item} (rest : Tells es is) :
      Tells (.opening name a selfClosing offset :: es) (.opening name a selfClosing :: is)
  | closing {name : String} {offset : Nat} {es : List Event} {is : List Item}
      (rest : Tells es is) : Tells (.closing name offset :: es) (.closing name :: is)

namespace Tells

variable {es : List Event} {is : List Item} {run : List (Char × Bool)}

theorem consText (h : Tells es is) (ne : run ≠ []) (offset : Nat) :
    Tells (Event.consText run offset es) (Item.ofRun run ++ is) := by
  cases h with
  | nil => exact text ne rfl nil
  | @text more _ es is _ whole rest =>
    have joined : Tells (.text (run ++ more) offset :: es) (Item.ofRun (run ++ more) ++ is) :=
      text (by simp [ne]) whole rest
    simpa [Event.consText, Item.ofRun] using joined
  | opening rest => exact text ne rfl (opening rest)
  | closing rest => exact text ne rfl (closing rest)

theorem lengthen {offset : Nat} (h : Tells (Event.consText run offset es) is) (x : Char × Bool)
    (offset' : Nat) :
    Tells (Event.consText (x :: run) offset' es) (.char x.1 x.2 :: is) := by
  unfold Event.consText at h ⊢
  split at h
  · cases h with
    | text ne whole rest => exact text (by simp) whole rest
  · cases h with
    | text ne whole rest => exact text (by simp) whole rest

end Tells

/-! ### Texts that read as items -/

/-- The text scans to events that say these items. -/
def Reads (cs : List Char) (is : List Item) : Prop :=
  ∀ offset, ∃ ps, scanFrom false offset cs = .ok ps ∧ Tells (Event.ofTokens ps) is

def restOfRun (c : Char) (rest : List Char) : List Char :=
  rest.takeWhile (if isLayoutBlank c then isLayoutBlank else isWordChar)

theorem textToken_plain {c : Char} (h : c ≠ '<' ∧ c ≠ '\\') (rest : List Char) :
    ∃ t, textToken c rest = (t, (restOfRun c rest).length) ∧ t.beginsTag = false ∧
      t.text? = some ((c :: restOfRun c rest).map (fun d => (d, false))) := by
  unfold textToken restOfRun
  simp only [beq_iff_eq, h.1, h.2, if_false]
  split
  · exact ⟨_, rfl, rfl, rfl⟩
  · exact ⟨_, rfl, rfl, rfl⟩

theorem scanFrom_plain {c : Char} (h : c ≠ '<' ∧ c ≠ '\\') (offset : Nat) (rest : List Char) :
    ∃ t, t.text? = some ((c :: restOfRun c rest).map (fun d => (d, false))) ∧
      scanFrom false offset (c :: rest) =
        (scanFrom false (offset + byteLength (c :: restOfRun c rest))
          (rest.drop (restOfRun c rest).length)).map
            (⟨t, offset, offset + byteLength (c :: restOfRun c rest)⟩ :: ·) := by
  obtain ⟨t, ht, begins, text⟩ := textToken_plain h rest
  refine ⟨t, text, ?_⟩
  have taken : rest.take (restOfRun c rest).length = restOfRun c rest :=
    List.prefix_iff_eq_take.mp (List.takeWhile_prefix _) |>.symm
  rw [scanFrom]
  simp [ht, begins, taken]

theorem restOfRun_cons {c d : Char} {rest more : List Char} (h : restOfRun c (d :: rest) = d :: more) :
    (d ≠ '<' ∧ d ≠ '\\') ∧ restOfRun d rest = more := by
  unfold restOfRun at h ⊢
  by_cases hd : (if isLayoutBlank c then isLayoutBlank else isWordChar) d = true
  · rw [List.takeWhile_cons_of_pos hd] at h
    have tail := (List.cons.inj h).2
    by_cases hc : isLayoutBlank c = true
    · simp only [hc, if_true] at hd tail
      refine ⟨⟨?_, ?_⟩, by simpa [hd] using tail⟩ <;> rintro rfl <;> exact absurd hd (by decide)
    · simp only [hc] at hd tail
      simp only [Bool.false_eq_true, if_false, isWordChar, Bool.and_eq_true,
        bne_iff_ne, Bool.not_eq_true'] at hd
      exact ⟨⟨hd.1.2, hd.2⟩, by simpa [hd.1.1] using tail⟩
  · rw [List.takeWhile_cons_of_neg hd] at h
    exact absurd h (by simp)

theorem ofTokens_text {t : Token} {cs : List (Char × Bool)} (h : t.text? = some cs)
    (start stop : Nat) (ps : List Placed) :
    Event.ofTokens (⟨t, start, stop⟩ :: ps) = Event.consText cs start (Event.ofTokens ps) := by
  rw [Event.ofTokens.eq_def]
  simp [h]

namespace Reads

variable {cs : List Char} {is : List Item}

theorem nil : Reads [] [] := fun offset =>
  ⟨[], by simp [scanFrom], by rw [Event.ofTokens]; exact .nil⟩

theorem plain {c : Char} (h : c ≠ '<' ∧ c ≠ '\\') (rest : Reads cs is) :
    Reads (c :: cs) (.char c false :: is) := by
  intro offset
  obtain ⟨t, text, scan⟩ := scanFrom_plain h offset cs
  cases run : restOfRun c cs with
  | nil =>
    obtain ⟨ps, hp, told⟩ := rest (offset + byteLength [c])
    rw [run] at scan text
    simp only [List.length_nil, List.drop_zero, hp, Except.map] at scan
    refine ⟨_, scan, ?_⟩
    rw [ofTokens_text text]
    have single : [(c, false)] ≠ [] := by simp
    exact told.consText single offset
  | cons d more =>
    -- the token of `c` is that of the character after it with `c` in front
    cases cs with
    | nil => simp [restOfRun] at run
    | cons d' cs =>
      obtain rfl : d' = d := by
        have := List.takeWhile_prefix (l := d' :: cs)
          (if isLayoutBlank c then isLayoutBlank else isWordChar)
        rw [← restOfRun, run, List.cons_prefix_cons] at this
        exact this.1.symm
      obtain ⟨hd, hmore⟩ := restOfRun_cons run
      obtain ⟨ps, hp, told⟩ := rest (offset + c.utf8Size)
      obtain ⟨t', text', scan'⟩ := scanFrom_plain hd (offset + c.utf8Size) cs
      rw [hmore] at scan' text'
      rw [run] at scan text
      have same : offset + byteLength (c :: d' :: more) =
          offset + c.utf8Size + byteLength (d' :: more) := by
        simp [byteLength]
        omega
      rw [same] at scan
      simp only [List.length_cons, List.drop_succ_cons] at scan
      rw [scan'] at hp
      cases tail : scanFrom false (offset + c.utf8Size + byteLength (d' :: more))
          (cs.drop more.length) with
      | error e => rw [tail] at hp; simp [Except.map] at hp
      | ok qs =>
        rw [tail] at hp scan
        simp only [Except.map, Except.ok.injEq] at hp scan
        refine ⟨_, scan, ?_⟩
        rw [← hp, ofTokens_text text'] at told
        rw [ofTokens_text text]
        exact told.lengthen (c, false) offset

def escapes : List (Char × Char) := [('n', '\n'), ('\\', '\\'), ('<', '<'), ('>', '>')]

theorem scanFrom_escaped {x c : Char} (h : (x, c) ∈ escapes) (offset : Nat) (rest : List Char) :
    scanFrom false offset ('\\' :: x :: rest) =
      (scanFrom false (offset + byteLength ['\\', x]) rest).map
        (⟨.escape c, offset, offset + byteLength ['\\', x]⟩ :: ·) := by
  have token : textToken '\\' (x :: rest) = (.escape c, 1) := by
    simp only [escapes, List.mem_cons, Prod.mk.injEq, List.not_mem_nil, or_false] at h
    rcases h with ⟨rfl, rfl⟩ | ⟨rfl, rfl⟩ | ⟨rfl, rfl⟩ | ⟨rfl, rfl⟩ <;> rfl
  rw [scanFrom]
  simp [token, Token.beginsTag]

theorem escaped {x c : Char} (h : (x, c) ∈ escapes) (rest : Reads cs is) :
    Reads ('\\' :: x :: cs) (.char c true :: is) := by
  intro offset
  obtain ⟨ps, hp, told⟩ := rest (offset + byteLength ['\\', x])
  refine ⟨⟨.escape c, offset, offset + byteLength ['\\', x]⟩ :: ps, ?_, ?_⟩
  · rw [scanFrom_escaped h, hp]
    rfl
  · rw [ofTokens_text (t := .escape c) rfl]
    have single : [(c, true)] ≠ [] := by simp
    exact told.consText single offset

theorem opening {e : Element} {selfClosing : Bool} {tail : List Char}
    (name : isName e.name.toList = true) (readable : ∀ p ∈ e.properties, p.isReadable = true)
    (spelled : TagTail selfClosing e.properties tail) (rest : Reads cs is) :
    Reads ('<' :: (e.name.toList ++ tail) ++ cs)
      (.opening e.name (.ofProperties e.properties) selfClosing :: is) := by
  have notSlash : (e.name.toList ++ tail ++ cs).head? ≠ some '/' := by
    cases h : e.name.toList with
    | nil => simp [h, isName] at name
    | cons c more =>
      rw [h] at name
      simp only [isName, Bool.and_eq_true] at name
      rintro hc
      simp only [List.cons_append, List.head?_cons, Option.some.injEq] at hc
      exact absurd name.1 (by rw [hc]; decide)
  have advances := (Advances.openTag notSlash).append
    ((Advances.name name (spelled.stopsName cs)).append (spelled.advances readable cs))
  intro offset
  obtain ⟨ps, stop, tokens, go⟩ := advances offset
  simp only [List.cons_append, List.nil_append, List.map_eq_cons_iff] at tokens
  obtain ⟨⟨t, i, j⟩, _, rfl, rfl, ⟨t', i', j'⟩, ps, rfl, rfl, tokens⟩ := tokens
  obtain ⟨qs, hq, told⟩ := rest stop
  refine ⟨_, by simpa using go qs hq, ?_⟩
  have attributes := readAttributes_tokens e.properties selfClosing {} ps qs tokens
  rw [Event.ofTokens.eq_def]
  simp only [Token.text?, openingEvent, attributes, String.ofList_toList]
  exact .opening told

theorem closing {name : String} (h : isName name.toList = true) (rest : Reads cs is) :
    Reads ('<' :: '/' :: (name.toList ++ '>' :: cs)) (.closing name :: is) := by
  have tagEnd : Advances true ['>'] [.tagEnd] false cs := Advances.tagEnd
  have advances := Advances.openClosing.append
    ((Advances.name h (by simp; decide)).append tagEnd)
  intro offset
  obtain ⟨ps, stop, tokens, go⟩ := advances offset
  simp only [List.cons_append, List.nil_append, List.map_eq_cons_iff, List.map_eq_nil_iff]
    at tokens
  obtain ⟨⟨t, i, j⟩, _, rfl, rfl, ⟨t', i', j'⟩, _, rfl, rfl, ⟨t'', i'', j''⟩, _, rfl, rfl, rfl⟩ :=
    tokens
  obtain ⟨qs, hq, told⟩ := rest stop
  refine ⟨_, by simpa using go qs hq, ?_⟩
  rw [Event.ofTokens.eq_def]
  simp only [Token.text?, closingEvent, String.ofList_toList]
  exact .closing told

end Reads

end Markup

open Markup

/-- Whether an element is read as it is written, and its properties break no line. -/
structure Element.IsSound (e : Element) : Prop where
  name : isName e.name.toList = true
  readable : ∀ p ∈ e.properties, p.isReadable = true
  oneLine : ∀ p ∈ e.properties, '\n' ∉ p.render

namespace Markup

/-- The text spells these items. -/
inductive Spells : List Char → List Item → Prop
  | nil : Spells [] []
  | plain {c : Char} {cs : List Char} {is : List Item} (h : c ≠ '<' ∧ c ≠ '\\')
      (rest : Spells cs is) : Spells (c :: cs) (.char c false :: is)
  | escaped {x c : Char} {cs : List Char} {is : List Item} (h : (x, c) ∈ Reads.escapes)
      (rest : Spells cs is) : Spells ('\\' :: x :: cs) (.char c true :: is)
  | opening {e : Element} {selfClosing : Bool} {tail cs : List Char} {is : List Item}
      (sound : e.IsSound) (spelled : TagTail selfClosing e.properties tail)
      (rest : Spells cs is) :
      Spells ('<' :: (e.name.toList ++ tail) ++ cs)
        (.opening e.name (.ofProperties e.properties) selfClosing :: is)
  | closing {e : Element} {cs : List Char} {is : List Item} (sound : e.IsSound)
      (rest : Spells cs is) : Spells (e.closing ++ cs) (.closing e.name :: is)

namespace Spells

variable {cs cs' : List Char} {is is' : List Item}

theorem reads (h : Spells cs is) : Reads cs is := by
  induction h with
  | nil => exact .nil
  | plain h _ ih => exact ih.plain h
  | escaped h _ ih => exact ih.escaped h
  | opening sound spelled _ ih => exact ih.opening sound.name sound.readable spelled
  | closing sound _ ih => simpa [Element.closing] using ih.closing sound.name

theorem append (h : Spells cs is) (h' : Spells cs' is') : Spells (cs ++ cs') (is ++ is') := by
  induction h with
  | nil => exact h'
  | plain h _ ih => exact ih.plain h
  | escaped h _ ih => exact ih.escaped h
  | opening sound spelled _ ih => simpa using ih.opening sound spelled
  | closing sound _ ih => simpa using ih.closing sound

end Spells

/-! ### Blanks put in after line breaks -/

def respace (margin cs : List Char) : List Char :=
  cs.flatMap (fun c => if c = '\n' then '\n' :: margin else [c])

/-- Put blanks in after every line break that is not escaped. -/
def respaceItem (margin : List Char) : Item → List Item
  | .char c escaped =>
    .char c escaped ::
      (if c = '\n' ∧ escaped = false then Item.ofRun (margin.map (fun d => (d, false))) else [])
  | i => [i]

@[simp] theorem respace_append (margin cs cs' : List Char) :
    respace margin (cs ++ cs') = respace margin cs ++ respace margin cs' := by
  simp [respace]

theorem respace_of_oneLine {margin cs : List Char} (h : '\n' ∉ cs) : respace margin cs = cs := by
  induction cs with
  | nil => rfl
  | cons c cs ih =>
    simp only [List.mem_cons, not_or] at h
    have := ih h.2
    simp only [respace] at this ⊢
    simp [Ne.symm h.1, this]

theorem oneLine_of_isName {n : List Char} (h : isName n = true) : '\n' ∉ n := by
  cases n with
  | nil => simp
  | cons c cs =>
    simp only [isName, Bool.and_eq_true, List.all_eq_true] at h
    simp only [List.mem_cons, not_or]
    refine ⟨?_, fun hc => absurd (h.2 _ hc) (by decide)⟩
    rintro rfl
    exact absurd h.1 (by decide)

theorem all_isLayoutBlank_respace {margin bs : List Char} (hm : margin.all isLayoutBlank = true)
    (hb : bs.all isLayoutBlank = true) : (respace margin bs).all isLayoutBlank = true := by
  simp only [List.all_eq_true, respace, List.mem_flatMap] at *
  rintro x ⟨c, hc, hx⟩
  split at hx
  · rcases List.mem_cons.mp hx with rfl | hx
    · decide
    · exact hm x hx
  · rw [List.mem_singleton] at hx
    exact hx ▸ hb c hc

theorem TagTail.respace {selfClosing : Bool} {ps : List Property} {cs margin : List Char}
    (hm : margin.all isLayoutBlank = true) (oneLine : ∀ p ∈ ps, '\n' ∉ p.render)
    (h : TagTail selfClosing ps cs) : TagTail selfClosing ps (respace margin cs) := by
  induction h with
  | done blank =>
    have sign : '\n' ∉ endSign selfClosing := by cases selfClosing <;> decide
    rw [respace_append, respace_of_oneLine sign]
    exact .done (all_isLayoutBlank_respace hm blank)
  | @property bs cs p ps ne blank tail ih =>
    simp only [List.mem_cons, forall_eq_or_imp] at oneLine
    rw [respace_append, respace_append, respace_of_oneLine oneLine.1]
    refine .property ?_ (all_isLayoutBlank_respace hm blank) (ih oneLine.2)
    cases bs with
    | nil => exact absurd rfl ne
    | cons b bs => simp [Markup.respace]; split <;> simp

theorem spells_blanks {bs : List Char} (h : bs.all isLayoutBlank = true) :
    Spells bs (Item.ofRun (bs.map (fun d => (d, false)))) := by
  induction bs with
  | nil => exact .nil
  | cons b bs ih =>
    simp only [List.all_cons, Bool.and_eq_true] at h
    refine .plain ⟨?_, ?_⟩ (ih h.2) <;> rintro rfl <;> exact absurd h.1 (by decide)

theorem Spells.respace {margin cs : List Char} {is : List Item}
    (hm : margin.all isLayoutBlank = true) (h : Spells cs is) :
    Spells (respace margin cs) (is.flatMap (respaceItem margin)) := by
  induction h with
  | nil => exact .nil
  | @plain c cs is h rest ih =>
    rw [← List.singleton_append, respace_append]
    by_cases hc : c = '\n'
    · subst hc
      have := (Spells.plain h (spells_blanks hm)).append ih
      simpa [Markup.respace, respaceItem] using this
    · simpa [Markup.respace, respaceItem, hc] using ih.plain h
  | @escaped x c cs is h rest ih =>
    have hx : '\n' ∉ ['\\', x] := by
      simp only [Reads.escapes, List.mem_cons, Prod.mk.injEq, List.not_mem_nil, or_false] at h
      rcases h with ⟨rfl, _⟩ | ⟨rfl, _⟩ | ⟨rfl, _⟩ | ⟨rfl, _⟩ <;> decide
    have split : '\\' :: x :: cs = ['\\', x] ++ cs := rfl
    rw [split, respace_append, respace_of_oneLine hx]
    simpa [respaceItem] using ih.escaped h
  | @opening e selfClosing tail cs is sound spelled rest ih =>
    have head : '\n' ∉ '<' :: e.name.toList := by
      simpa using oneLine_of_isName sound.name
    have split : '<' :: (e.name.toList ++ tail) ++ cs = ('<' :: e.name.toList) ++ (tail ++ cs) := by
      simp
    rw [split, respace_append, respace_append, respace_of_oneLine head]
    simpa [respaceItem] using ih.opening sound (spelled.respace hm sound.oneLine)
  | @closing e cs is sound rest ih =>
    have : '\n' ∉ e.closing := by
      simpa [Element.closing] using oneLine_of_isName sound.name
    rw [respace_append, respace_of_oneLine this]
    simpa [respaceItem] using ih.closing sound

end Markup

end WorldMarkup
