import Mathlib
import WorldMarkup.Proofs.Layout.Printing
import WorldMarkup.Proofs.Layout.SteadyTags

/-!
Candidates of two pages with one margin. One outdoes another of its mode when it fits a room that
the other fits. Main statement: the candidates of an element outdo those on another page when its
parts do.
-/

set_option autoImplicit false
set_option relaxedAutoImplicit false

namespace WorldMarkup.Layout

open Markup

variable {room budget : Nat}

/-! ### Candidates of two pages -/

/-- Both texts are steady, and the first fits the room if the second does. -/
structure IsNoWider (room : Nat) (out out' : List Char) : Prop where
  steady : IsSteady out
  steady' : IsSteady out'
  fits : Fits room out' → Fits room out

theorem IsNoWider.refl {out : List Char} (steady : IsSteady out) : IsNoWider room out out :=
  ⟨steady, steady, id⟩

/-- A candidate of this page and one of the other, of one mode: on one line they are the same, and
in every mode this one fits if the other does. -/
structure Outdoes (room : Nat) (c c' : Candidate) : Prop where
  mode : c.mode = c'.mode
  naive : c.mode = .naive → c = c'
  output : IsNoWider room c.output c'.output

theorem Outdoes.refl {c : Candidate} (steady : IsSteady c.output) : Outdoes room c c :=
  ⟨rfl, fun _ => rfl, .refl steady⟩

theorem widest_le_iff {text : List Char} : widest text ≤ room ↔ Fits room text := by
  have bound : ∀ (ns : List Nat) (most : Nat),
      ns.foldl max most ≤ room ↔ most ≤ room ∧ ∀ n ∈ ns, n ≤ room := by
    intro ns
    induction ns with
    | nil => simp
    | cons n ns ih =>
      intro most
      rw [List.foldl_cons, ih, List.forall_mem_cons, Nat.max_le, and_assoc]
  rw [widest, bound]
  simp [Fits]

theorem width_le_iff {c : Candidate} : c.width ≤ room ↔ Fits room c.output := widest_le_iff

section

variable {cs cs' : List Candidate}

theorem fits_of_choose? {c x : Candidate} {i : Nat} (chosen : choose? room cs = some (c, i))
    (hx : x ∈ cs) (fits : Fits room x.output) : Fits room c.output := by
  unfold choose? at chosen
  cases found : cs.zipIdx.find? (fun c => c.1.width ≤ room) with
  | some y =>
    obtain rfl : y = (c, i) := by simpa [found] using chosen
    exact width_le_iff.1 (by simpa using List.find?_some found)
  | none =>
    obtain ⟨k, hk, rfl⟩ := List.getElem_of_mem hx
    have wide := List.find?_eq_none.1 found (cs[k], k) (by
      rw [List.mk_mem_zipIdx_iff_getElem?, List.getElem?_eq_getElem hk])
    exact absurd (width_le_iff.2 fits) (by simpa using wide)

/-- What this page chooses fits if what the other chooses does. -/
theorem choose?_outdoes (h : List.Forall₂ (Outdoes room) cs cs') (budget : Nat) :
    Option.Rel (fun x x' => IsNoWider room x.1.output x'.1.output) (choose? room cs)
      (choose? budget cs') := by
  have other : ∀ c' ∈ cs', ∃ c ∈ cs, Outdoes room c c' := by
    intro c' hc'
    obtain ⟨k, hk, rfl⟩ := List.getElem_of_mem hc'
    have hk' : k < cs.length := by rwa [h.length_eq]
    exact ⟨cs[k], List.getElem_mem hk', h.get hk' hk⟩
  have own : ∀ c ∈ cs, ∃ c' ∈ cs', Outdoes room c c' := by
    intro c hc
    obtain ⟨k, hk, rfl⟩ := List.getElem_of_mem hc
    have hk' : k < cs'.length := by rwa [← h.length_eq]
    exact ⟨cs'[k], List.getElem_mem hk', h.get hk hk'⟩
  by_cases some : cs' = []
  · subst some
    cases h
    exact .none
  · have some' : cs ≠ [] := by
      rintro rfl
      cases h
      exact some rfl
    obtain ⟨c', i', chosen', mem'⟩ := choose?_of_ne_nil budget some
    obtain ⟨c, i, chosen, mem⟩ := choose?_of_ne_nil room some'
    rw [chosen, chosen']
    obtain ⟨x, hx, better⟩ := other c' mem'
    obtain ⟨_, _, good⟩ := own c mem
    exact .some ⟨good.output.steady, better.output.steady', fun fits =>
      fits_of_choose? chosen hx (better.output.fits fits)⟩

theorem outdoes_filter (h : List.Forall₂ (Outdoes room) cs cs') (keep : Mode → Bool) :
    List.Forall₂ (Outdoes room) (cs.filter (fun c => keep c.mode))
      (cs'.filter (fun c => keep c.mode)) := by
  induction h with
  | nil => exact .nil
  | cons hc _ ih =>
    simp only [List.filter_cons, hc.mode]
    split
    · exact .cons hc ih
    · exact ih

theorem find?_naive_outdoes (h : List.Forall₂ (Outdoes room) cs cs') :
    Option.Rel (fun c c' => c = c' ∧ IsSteady c.output) (cs.find? (fun c => c.mode = .naive))
      (cs'.find? (fun c => c.mode = .naive)) := by
  induction h with
  | nil => exact .none
  | @cons c c' cs cs' hc _ ih =>
    have mode := hc.mode
    by_cases naive : c.mode = .naive
    · have naive' : c'.mode = .naive := by rw [← mode, naive]
      simp only [List.find?_cons, naive, naive', decide_true]
      exact .some ⟨hc.naive naive, hc.output.steady⟩
    · have naive' : c'.mode ≠ .naive := by rwa [← mode]
      simpa only [List.find?_cons, naive, naive', decide_false] using ih

end

/-! ### Parts of two pages -/

/-- A part of this page and one of the other: candidates for one child, or one divider. -/
inductive PartOutdoes (room : Nat) : Part → Part → Prop
  | child {cs cs' : List Candidate} (h : List.Forall₂ (Outdoes room) cs cs') :
      PartOutdoes room (.child cs) (.child cs')
  | divider {text : List Char} (h : IsSteady text) :
      PartOutdoes room (.divider text) (.divider text)

theorem rel_mapM {α β γ δ : Type} {R : α → β → Prop} {S : γ → δ → Prop} {f : α → Option γ}
    {g : β → Option δ} (step : ∀ a b, R a b → Option.Rel S (f a) (g b)) {xs : List α}
    {ys : List β} (h : List.Forall₂ R xs ys) :
    Option.Rel (List.Forall₂ S) (xs.mapM f) (ys.mapM g) := by
  induction h with
  | nil => exact .some .nil
  | @cons x y xs ys hxy _ ih =>
    rw [List.mapM_cons, List.mapM_cons]
    have first := step x y hxy
    generalize f x = a at first ⊢
    generalize g y = b at first ⊢
    cases first with
    | none => exact .none
    | @some c d hcd =>
      generalize xs.mapM f = as at ih ⊢
      generalize ys.mapM g = bs at ih ⊢
      cases ih with
      | none => exact .none
      | some rest => exact .some (.cons hcd rest)

theorem forall₂_mapM {α β γ δ : Type} {R : α → β → Prop} {S : γ → δ → Prop}
    {f : α → Except PrintError γ} {g : β → Except PrintError δ}
    (step : ∀ a b, R a b → ∀ d, g b = .ok d → ∃ c, f a = .ok c ∧ S c d) {xs : List α}
    {ys : List β} (h : List.Forall₂ R xs ys) {ds : List δ} (done : ys.mapM g = .ok ds) :
    ∃ cs, xs.mapM f = .ok cs ∧ List.Forall₂ S cs ds := by
  induction h generalizing ds with
  | nil =>
    obtain rfl : [] = ds := by simpa [pure, Except.pure] using done
    exact ⟨[], rfl, .nil⟩
  | @cons x y xs ys hxy _ ih =>
    rw [List.mapM_cons] at done
    obtain ⟨d, hd, done⟩ := Except.bind_eq_ok.1 done
    obtain ⟨more, hmore, done⟩ := Except.bind_eq_ok.1 done
    obtain rfl : d :: more = ds := by simpa [pure, Except.pure] using done
    obtain ⟨c, hc, first⟩ := step x y hxy d hd
    obtain ⟨cs, hcs, rest⟩ := ih hmore
    refine ⟨c :: cs, ?_, .cons first rest⟩
    rw [List.mapM_cons, hc, hcs]
    rfl

section

variable {page page' : Page} {depth : Nat} {p p' : Part}

theorem IsNoWider.indentBlock {out out' : List Char} (oneLine : '\n' ∉ page.margin)
    (h : IsNoWider (page.budget (depth + 1)) out out') :
    IsNoWider (page.budget depth) (indentBlock out page.margin)
      (indentBlock out' page.margin) where
  steady := steady_indentBlock oneLine h.steady
  steady' := steady_indentBlock oneLine h.steady'
  fits := by
    rw [fits_indentBlock oneLine h.steady, fits_indentBlock oneLine h.steady']
    exact h.fits

theorem PartOutdoes.naive? (h : PartOutdoes room p p') :
    Option.Rel (fun x x' => x = x' ∧ IsSteady x) p.naive? p'.naive? := by
  cases h with
  | divider steady => exact .some ⟨rfl, steady⟩
  | @child cs cs' h =>
    have found := find?_naive_outdoes h
    simp only [Part.naive?]
    generalize cs.find? (fun c => c.mode = .naive) = a at found ⊢
    generalize cs'.find? (fun c => c.mode = .naive) = b at found ⊢
    cases found with
    | none => exact .none
    | some same => exact .some ⟨congrArg _ same.1, same.2⟩

theorem PartOutdoes.nested? (margin : page'.margin = page.margin) (oneLine : '\n' ∉ page.margin)
    (h : PartOutdoes (page.budget (depth + 1)) p p') :
    Option.Rel (IsNoWider (page.budget depth)) (p.nested? page depth) (p'.nested? page' depth) := by
  cases h with
  | divider steady => exact .some (.refl steady)
  | @child cs cs' h =>
    have kept := outdoes_filter h (fun mode => mode ≠ .propertyNested)
    have chosen := choose?_outdoes kept (page'.budget (depth + 1))
    simp only [Part.nested?, margin]
    generalize choose? (page.budget (depth + 1)) _ = a at chosen ⊢
    generalize choose? (page'.budget (depth + 1)) _ = b at chosen ⊢
    cases chosen with
    | none => exact .none
    | some better => exact .some (better.indentBlock oneLine)

theorem PartOutdoes.spread (margin : page'.margin = page.margin) (oneLine : '\n' ∉ page.margin)
    (h : PartOutdoes (page.budget (depth + 1)) p p') {out' : List Char}
    (done : p'.spread page' depth = .ok out') :
    ∃ out, p.spread page depth = .ok out ∧ IsNoWider (page.budget depth) out out' := by
  cases h with
  | divider steady =>
    obtain rfl := Except.ok.inj done
    exact ⟨_, rfl, .refl steady⟩
  | @child cs cs' h =>
    have chosen := choose?_outdoes h (page'.budget (depth + 1))
    simp only [Part.spread, collapse, choose, margin] at done ⊢
    generalize choose? (page.budget (depth + 1)) _ = a at chosen ⊢
    generalize choose? (page'.budget (depth + 1)) _ = b at chosen done
    cases chosen with
    | none => simp [Except.map] at done
    | some better =>
      obtain rfl := Except.ok.inj done
      exact ⟨_, rfl, better.indentBlock oneLine⟩

theorem PartOutdoes.isWithoutCandidates (h : PartOutdoes room p p') :
    p.isWithoutCandidates = p'.isWithoutCandidates := by
  cases h with
  | divider => rfl
  | child h => cases h <;> rfl

/-! ### Elements on two pages -/

theorem steady_between {opening closing : List Char} {content : List (List Char)}
    (ho : IsSteady opening) (hc : IsSteady closing) (h : ∀ x ∈ content, IsSteady x) :
    IsSteady (between opening content closing) :=
  ho.append_break ((IsSteady.unlines h).append_break hc)

theorem fits_between {opening closing : List Char} {content : List (List Char)}
    (ho : IsSteady opening) (h : ∀ x ∈ content, IsSteady x) :
    Fits room (between opening content closing) ↔
      Fits room opening ∧ (∀ x ∈ content, Fits room x) ∧ Fits room closing := by
  rw [between, fits_append_break ho, fits_append_break (.unlines h), fits_unlines h]

theorem IsNoWider.of_forall₂ {texts texts' : List (List Char)}
    (h : List.Forall₂ (IsNoWider room) texts texts') :
    (∀ x ∈ texts, IsSteady x) ∧ (∀ x ∈ texts', IsSteady x) ∧
      ((∀ x ∈ texts', Fits room x) → ∀ x ∈ texts, Fits room x) := by
  induction h with
  | nil => simp
  | cons hx _ ih =>
    simp only [List.forall_mem_cons]
    exact ⟨⟨hx.steady, ih.1⟩, ⟨hx.steady', ih.2.1⟩, fun fits => ⟨hx.fits fits.1, ih.2.2 fits.2⟩⟩

theorem IsNoWider.between {opening closing : List Char} {content content' : List (List Char)}
    (ho : IsSteady opening) (hc : IsSteady closing)
    (h : List.Forall₂ (IsNoWider room) content content') :
    IsNoWider room (between opening content closing) (between opening content' closing) := by
  obtain ⟨steady, steady', fits⟩ := IsNoWider.of_forall₂ h
  refine ⟨steady_between ho hc steady, steady_between ho hc steady', ?_⟩
  rw [fits_between ho steady, fits_between ho steady']
  exact fun ⟨own, inside, ends⟩ => ⟨own, fits inside, ends⟩

theorem forall₂_toList {α β : Type} {S : α → β → Prop} {a : Option α} {b : Option β}
    (h : Option.Rel S a b) : List.Forall₂ S a.toList b.toList := by
  cases h with
  | none => exact .nil
  | some h => exact .cons h .nil

theorem rel_map {α β γ δ : Type} {R : α → β → Prop} {S : γ → δ → Prop} {f : α → γ} {g : β → δ}
    (step : ∀ a b, R a b → S (f a) (g b)) {a : Option α} {b : Option β} (h : Option.Rel R a b) :
    Option.Rel S (a.map f) (b.map g) := by
  cases h with
  | none => exact .none
  | some h => exact .some (step _ _ h)

theorem steadyTag_of_mem_renderEmpty {e : Element} (tags : HasSteadyTags e)
    (oneLine : '\n' ∉ page.margin) {c : Candidate} (h : c ∈ renderEmpty page e) :
    IsSteadyTag c.output := by
  unfold renderEmpty at h
  rcases List.mem_cons.1 h with rfl | h
  · exact steadyTag_selfClosing tags
  · split at h
    · simp at h
    · rw [List.mem_singleton.1 h]
      exact steadyTag_selfClosingBlock tags oneLine

theorem outdoes_renderEmpty {e : Element} (tags : HasSteadyTags e)
    (margin : page'.margin = page.margin) (oneLine : '\n' ∉ page.margin) :
    List.Forall₂ (Outdoes room) (renderEmpty page e) (renderEmpty page' e) := by
  have same : renderEmpty page' e = renderEmpty page e := by
    rw [renderEmpty, renderEmpty, margin]
  rw [same, List.forall₂_same]
  exact fun c hc => .refl (steadyTag_of_mem_renderEmpty tags oneLine hc).steady

def naiveCandidate (e : Element) (parts : List Part) : Option Candidate :=
  (parts.mapM Part.naive?).map (fun content =>
    ⟨.naive, e.opening ++ content.flatten ++ e.closing⟩)

/-- The candidate of an element with its content on lines of its own. -/
def nestedCandidate (page : Page) (depth : Nat) (e : Element) (parts : List Part) :
    Option Candidate :=
  (parts.mapM (Part.nested? page depth)).map (fun content =>
    ⟨.nested, between e.opening content e.closing⟩)

/-- The candidate of an element with its properties on lines of their own, if it has any. -/
def spreadCandidate (page : Page) (depth : Nat) (e : Element) (parts : List Part) :
    Except PrintError (Option Candidate) :=
  if e.properties.isEmpty then .ok none
  else (parts.mapM (Part.spread page depth)).map (fun content =>
    some ⟨.propertyNested, between (e.openingBlock page.margin) content e.closing⟩)

theorem render_eq_ok {e : Element} {parts : List Part} {cs : List Candidate} :
    render page depth e parts = .ok cs ↔
      if parts.isEmpty then cs = renderEmpty page e
      else parts.any Part.isWithoutCandidates = false ∧ cs ≠ [] ∧
        ∃ spread, spreadCandidate page depth e parts = .ok spread ∧
          cs = (naiveCandidate e parts).toList ++
            (nestedCandidate page depth e parts).toList ++ spread.toList := by
  unfold render
  split
  · simp [eq_comm]
  · cases parts.any Part.isWithoutCandidates with
    | true => simp
    | false =>
      unfold spreadCandidate naiveCandidate nestedCandidate
      cases e.properties.isEmpty <;> cases parts.mapM (Part.spread page depth)
      case false.error => simp [bind, Except.bind, Except.map]
      -- whatever candidate there is with properties on lines of their own, the rest is one match
      all_goals
        simp only [Bool.false_eq_true, if_false, if_true, true_and, bind, Except.bind, pure,
          Except.pure, Except.map, Except.ok.injEq, exists_eq_left']
        split
        · rename_i none
          rw [none]
          simp
        · rename_i some
          rw [Except.ok.injEq]
          constructor
          · rintro rfl
            exact ⟨some, rfl⟩
          · exact fun h => h.2.symm

section

variable {e : Element} {parts parts' : List Part}

theorem naiveCandidate_outdoes (tags : HasSteadyTags e)
    (h : List.Forall₂ (PartOutdoes budget) parts parts') :
    Option.Rel (Outdoes room) (naiveCandidate e parts) (naiveCandidate e parts') := by
  refine rel_map (fun content content' same => ?_) (rel_mapM (fun p p' hp => hp.naive?) h)
  have steady : (∀ x ∈ content, IsSteady x) ∧ content = content' := by
    induction same with
    | nil => simp
    | cons hx _ ih => exact ⟨List.forall_mem_cons.2 ⟨hx.2, ih.1⟩, by rw [hx.1, ih.2]⟩
  obtain ⟨steady, rfl⟩ := steady
  exact .refl (((steadyTag_opening tags).steady.append (.flatten steady)).append
    (steadyTag_closing tags).steady)

theorem nestedCandidate_outdoes (tags : HasSteadyTags e) (margin : page'.margin = page.margin)
    (oneLine : '\n' ∉ page.margin)
    (h : List.Forall₂ (PartOutdoes (page.budget (depth + 1))) parts parts') :
    Option.Rel (Outdoes (page.budget depth)) (nestedCandidate page depth e parts)
      (nestedCandidate page' depth e parts') := by
  refine rel_map (fun content content' better => ⟨rfl, by simp, ?_⟩)
    (rel_mapM (fun p p' hp => hp.nested? margin oneLine) h)
  exact .between (steadyTag_opening tags).steady (steadyTag_closing tags).steady better

theorem spreadCandidate_outdoes (tags : HasSteadyTags e) (margin : page'.margin = page.margin)
    (oneLine : '\n' ∉ page.margin)
    (h : List.Forall₂ (PartOutdoes (page.budget (depth + 1))) parts parts')
    {out' : Option Candidate} (done : spreadCandidate page' depth e parts' = .ok out') :
    ∃ out, spreadCandidate page depth e parts = .ok out ∧
      Option.Rel (Outdoes (page.budget depth)) out out' := by
  unfold spreadCandidate at done ⊢
  split at done
  · obtain rfl := Except.ok.inj done
    rename_i bare
    exact ⟨none, if_pos bare, .none⟩
  · rename_i bare
    rw [if_neg bare]
    cases hcontent' : parts'.mapM (Part.spread page' depth) with
    | error fault => simp [hcontent', Except.map] at done
    | ok content' =>
      rw [hcontent'] at done
      obtain rfl := Except.ok.inj done
      obtain ⟨content, hcontent, better⟩ :=
        forall₂_mapM (fun p p' hp out' => hp.spread margin oneLine) h hcontent'
      rw [hcontent, margin]
      refine ⟨_, rfl, .some ⟨rfl, by simp, ?_⟩⟩
      exact .between (steadyTag_openingBlock tags oneLine).steady (steadyTag_closing tags).steady
        better

theorem head_of_mem_render {cs : List Candidate} (done : render page depth e parts = .ok cs) :
    ∀ c ∈ cs, c.output.head? = some '<' := by
  rw [render_eq_ok] at done
  split at done
  · intro c hc
    rw [done, renderEmpty] at hc
    rcases List.mem_cons.1 hc with rfl | hc
    · rfl
    · split at hc
      · simp at hc
      · rw [List.mem_singleton.1 hc]
        rfl
  · obtain ⟨-, -, spread, hspread, rfl⟩ := done
    intro c hc
    rcases List.mem_append.1 hc with hc | hc
    · rcases List.mem_append.1 hc with hc | hc
      · obtain ⟨content, -, rfl⟩ := Option.map_eq_some_iff.1 (Option.mem_toList.1 hc)
        rfl
      · obtain ⟨content, -, rfl⟩ := Option.map_eq_some_iff.1 (Option.mem_toList.1 hc)
        rfl
    · obtain rfl := Option.mem_toList.1 hc
      unfold spreadCandidate at hspread
      split at hspread
      · simp at hspread
      · cases hcontent : parts.mapM (Part.spread page depth) with
        | error fault => simp [hcontent, Except.map] at hspread
        | ok content =>
          rw [hcontent] at hspread
          obtain rfl := Option.some.inj (Except.ok.inj hspread)
          rfl

/-- An element whose parts are matched has matched candidates on the two pages. -/
theorem outdoes_render (tags : HasSteadyTags e) (margin : page'.margin = page.margin)
    (oneLine : '\n' ∉ page.margin)
    (h : List.Forall₂ (PartOutdoes (page.budget (depth + 1))) parts parts') {cs' : List Candidate}
    (done : render page' depth e parts' = .ok cs') :
    ∃ cs, render page depth e parts = .ok cs ∧
      List.Forall₂ (Outdoes (page.budget depth)) cs cs' := by
  have without : parts.any Part.isWithoutCandidates = parts'.any Part.isWithoutCandidates := by
    clear done
    induction h with
    | nil => rfl
    | cons hp _ ih => rw [List.any_cons, List.any_cons, hp.isWithoutCandidates, ih]
  have empty : parts.isEmpty = parts'.isEmpty := by cases h <;> rfl
  simp only [render_eq_ok] at done ⊢
  rw [empty, without]
  split at done
  · rename_i none
    simp only [if_pos none, exists_eq_left]
    subst done
    exact outdoes_renderEmpty tags margin oneLine
  · rename_i some
    simp only [if_neg some]
    obtain ⟨full, some, spread', hspread', rfl⟩ := done
    obtain ⟨spread, hspread, better⟩ := spreadCandidate_outdoes tags margin oneLine h hspread'
    have naive : Option.Rel (Outdoes (page.budget depth)) (naiveCandidate e parts)
        (naiveCandidate e parts') := naiveCandidate_outdoes tags h
    have all := List.rel_append (List.rel_append (forall₂_toList naive)
      (forall₂_toList (nestedCandidate_outdoes tags margin oneLine h))) (forall₂_toList better)
    refine ⟨_, ⟨full, ?_, spread, hspread, rfl⟩, all⟩
    intro none
    simp only [none] at all
    exact some (List.forall₂_nil_left_iff.1 all)

theorem outdoes_runningCandidates (tags : HasSteadyTags e) (margin : page'.margin = page.margin)
    (oneLine : '\n' ∉ page.margin) {pieces : List Piece}
    (steady : ∀ p ∈ pieces, HasSteadyAtom p) :
    List.Forall₂ (Outdoes (page.budget depth)) (runningCandidates page depth e pieces)
      (runningCandidates page' depth e pieces) := by
  have opening := (steadyTag_opening tags).steady
  have closing := steadyTag_closing tags
  have naive : IsSteady (e.opening ++ pieces.flatMap Piece.written ++ e.closing) := by
    rw [List.append_assoc]
    exact opening.append (steady_running steady closing 0)
  refine .cons (.refl naive) ?_
  cases hchunks : chunks? pieces with
  | none => exact .nil
  | some chunks =>
    have chunked := steady_chunks? steady hchunks
    have rows : IsNoWider (page.budget (depth + 1))
        (unlines (fill (page.budget (depth + 1)) chunks))
        (unlines (fill (page'.budget (depth + 1)) chunks)) :=
      ⟨.unlines (steady_fill chunked), .unlines (steady_fill chunked), fits_fill chunked⟩
    rw [margin]
    exact .cons ⟨rfl, by simp, .between opening closing.steady (.cons (rows.indentBlock oneLine) .nil)⟩
      .nil

theorem head_of_mem_runningCandidates {pieces : List Piece} :
    ∀ c ∈ runningCandidates page depth e pieces, c.output.head? = some '<' := by
  intro c hc
  rcases List.mem_cons.1 hc with rfl | hc
  · rfl
  · cases hchunks : chunks? pieces with
    | none => simp [hchunks] at hc
    | some chunks =>
      simp only [hchunks, List.mem_singleton] at hc
      subst hc
      rfl

end

end

end WorldMarkup.Layout
