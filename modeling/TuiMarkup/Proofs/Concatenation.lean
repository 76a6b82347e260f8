import Mathlib.Data.List.TakeWhile
import Mathlib.Tactic.Lemma
import TuiMarkup.Proofs.RoundTrip
import TuiMarkup.Proofs.TokenPlaces

/-! Texts that are put one behind the other. When the first is read to its end and the second opens
with an angle bracket, the tokens are those of the first and then those of the second, moved to
their new places. -/

namespace TuiMarkup.Proofs.Concatenation

open Markup Rendering RoundTrip TokenPlaces

variable {mode : Mode} {c : Char} {cs q body rest : List Char}

/-! ### Places -/

/-- The place `l` of a text that begins at `base`. On its first line columns count on from there. -/
def shift (base l : Location) : Location where
  offset := base.offset + l.offset
  line := base.line + l.line
  column := if l.line = 0 then base.column + l.column else l.column

def shiftSpan (base : Location) (s : Span) : Span :=
  ⟨shift base s.start, shift base s.stop⟩

def shiftToken (base : Location) (t : Token) : Token :=
  { t with span := shiftSpan base t.span }

def shiftFault (base : Location) (f : Fault) : Fault :=
  { f with span := shiftSpan base f.span }

lemma shift_origin (base : Location) : shift base {} = base :=
  rfl

lemma advance_shift (base l : Location) (c : Char) :
    (shift base l).advance c = shift base (l.advance c) := by
  by_cases hc : c = '\n'
  · simp [Location.advance, shift, hc, Nat.add_assoc]
  · by_cases hl : l.line = 0 <;> simp [Location.advance, shift, hc, hl, Nat.add_assoc]

lemma after_shift (base l : Location) (cs : List Char) :
    (shift base l).after cs = shift base (l.after cs) := by
  induction cs generalizing l with
  | nil => rfl
  | cons c cs ih =>
    change ((shift base l).advance c).after cs = shift base ((l.advance c).after cs)
    rw [advance_shift]
    apply ih

lemma locate_shift (base l : Location) (ps : List Piece) :
    Piece.locate (shift base l) ps =
      ((Piece.locate l ps).1.map (shiftToken base), shift base (Piece.locate l ps).2) := by
  induction ps generalizing l with
  | nil => rfl
  | cons p ps ih =>
    cases p with
    | token content text =>
      simp only [Piece.locate, after_shift, ih]
      rfl
    | gap text => simp only [Piece.locate, after_shift, ih]

lemma locate_append (l : Location) (ps qs : List Piece) :
    Piece.locate l (ps ++ qs) =
      ((Piece.locate l ps).1 ++ (Piece.locate (Piece.locate l ps).2 qs).1,
        (Piece.locate (Piece.locate l ps).2 qs).2) := by
  induction ps generalizing l with
  | nil => rfl
  | cons p ps ih =>
    cases p with
    | token content text =>
      simp only [List.cons_append, Piece.locate, ih]
    | gap text => exact ih _

/-! ### Stretches of text

What ends before the end of a text ends there too when the text goes on. -/

lemma takeWhile_extend {p : Char → Bool} (h : cs.dropWhile p ≠ []) (q : List Char) :
    (cs ++ q).takeWhile p = cs.takeWhile p ∧ (cs ++ q).dropWhile p = cs.dropWhile p ++ q := by
  have hl : (cs.takeWhile p).length ≠ cs.length := by
    intro hl
    have hs := congrArg List.length (List.takeWhile_append_dropWhile (p := p) (l := cs))
    rw [List.length_append] at hs
    exact h (List.length_eq_zero_iff.mp (by omega))
  constructor
  · rw [List.takeWhile_append, if_neg hl]
  · rw [List.dropWhile_append, if_neg (by simpa using h)]

lemma closeReference_extend {value : Option Char} {text : List Char} {cause : String → Cause}
    {r : Reference} (h : closeReference value text cause cs = .ok r) (q : List Char) :
    cs ≠ [] ∧
      closeReference value text cause (cs ++ q) = .ok { r with rest := r.rest ++ q } := by
  unfold closeReference at h
  split at h
  · split at h
    · cases h
      exact ⟨by simp, rfl⟩
    · cases h
  · cases h

lemma numericReference_extend {mark : List Char} {isDigit : Char → Bool} {number : List Char → ℕ}
    {r : Reference} (h : numericReference mark isDigit number cs = .ok r) (q : List Char) :
    cs ≠ [] ∧
      numericReference mark isDigit number (cs ++ q) = .ok { r with rest := r.rest ++ q } := by
  obtain ⟨hn, hc⟩ := closeReference_extend h q
  obtain ⟨ht, hd⟩ := takeWhile_extend hn q
  refine ⟨?_, ?_⟩
  · rintro rfl
    exact hn rfl
  · rw [numericReference, ht, hd]
    exact hc

lemma reference_extend {r : Reference} (h : reference cs = .ok r) (q : List Char) :
    reference (cs ++ q) = .ok { r with rest := r.rest ++ q } := by
  unfold reference at h
  split at h
  · exact (numericReference_extend h q).2
  next ds hx =>
    obtain ⟨hn, hc⟩ := numericReference_extend h q
    obtain ⟨d, ds, rfl⟩ := List.exists_cons_of_ne_nil hn
    have hd : d ≠ 'x' := fun hd => hx ds (by rw [hd])
    rw [List.cons_append, List.cons_append, reference]
    · exact hc
    · simp [hd]
  next hx ho =>
    obtain ⟨hn, hc⟩ := closeReference_extend h q
    obtain ⟨ht, hd⟩ := takeWhile_extend hn q
    have hs : ∀ ds, cs ++ q ≠ '#' :: ds := by
      intro ds hs
      cases cs with
      | nil => exact hn rfl
      | cons c cs => exact ho cs (by rw [(List.cons.inj hs).1])
    rw [reference]
    · rw [ht, hd]
      exact hc
    · exact fun ds hs' => hs _ hs'
    · exact hs

lemma run_extend {halts : Char → Bool} {spell : Char → Char} (hh : halts '<' = true)
    (h : (run halts spell cs).failure = none) (tail : List Char) :
    run halts spell (cs ++ '<' :: tail) =
      { run halts spell cs with rest := (run halts spell cs).rest ++ '<' :: tail } := by
  fun_induction run halts spell cs with
  | case1 => rw [List.nil_append, run, if_pos hh]
  | case2 c cs hc => rw [List.cons_append, run, if_pos hc]
  | case3 cs r hr hc ih =>
    have he := reference_extend hr ('<' :: tail)
    rw [List.cons_append, run, if_neg hc, if_pos rfl]
    split
    next r' hr' =>
      cases he.symm.trans hr'
      rw [ih h]
      rfl
    next f hf => cases he.symm.trans hf
  | case4 => cases h
  | case5 c cs hc hr ih =>
    rw [List.cons_append, run, if_neg hc, if_neg hr, ih h]
    rfl

lemma afterStartChars?_extend {mark : List Char} (h : Text.afterStartChars? mark cs = none)
    (hl : mark.length ≤ cs.length) (q : List Char) :
    Text.afterStartChars? mark (cs ++ q) = none := by
  rw [Option.eq_none_iff_forall_ne_some] at h ⊢
  intro rest hr
  rw [Text.afterStartChars?_eq_some] at hr
  have hp : mark <+: cs := List.prefix_of_prefix_length_le ⟨rest, hr.symm⟩ ⟨q, rfl⟩ hl
  obtain ⟨rest', rfl⟩ := hp
  exact h rest' (Text.afterStartChars?_eq_some.mpr rfl)

lemma upTo_extend {mark : List Char} (h : upTo mark cs = some (body, rest)) (q : List Char) :
    upTo mark (cs ++ q) = some (body, rest ++ q) := by
  induction cs generalizing body with
  | nil => cases h
  | cons c cs ih =>
    have hl : mark.length ≤ (c :: cs).length := by
      rw [← upTo_eq h]
      simp
      omega
    unfold upTo at h
    rw [List.cons_append, upTo]
    split at h
    next r hm =>
      obtain ⟨rfl, rfl⟩ := Prod.mk.inj (Option.some.inj h)
      have hs : c :: (cs ++ q) = mark ++ (r ++ q) := by
        rw [← List.append_assoc, ← Text.afterStartChars?_eq_some.mp hm, List.cons_append]
      rw [Text.afterStartChars?_eq_some.mpr hs]
    next hm =>
      obtain ⟨⟨b, r⟩, hb, hr⟩ := Option.map_eq_some_iff.mp h
      obtain ⟨rfl, rfl⟩ := Prod.mk.inj hr
      have hn := afterStartChars?_extend hm hl q
      rw [List.cons_append] at hn
      rw [hn, ih hb]
      rfl

lemma doctypeBody_extend {depth : ℕ} (h : doctypeBody depth cs = some (body, rest))
    (q : List Char) : doctypeBody depth (cs ++ q) = some (body, rest ++ q) := by
  induction cs generalizing depth body with
  | nil => cases h
  | cons c cs ih =>
    unfold doctypeBody at h
    rw [List.cons_append, doctypeBody]
    split at h
    next hc =>
      obtain ⟨rfl, rfl⟩ := Prod.mk.inj (Option.some.inj h)
      rw [if_pos hc]
    next hc =>
      obtain ⟨⟨b, r⟩, hb, hr⟩ := Option.map_eq_some_iff.mp h
      obtain ⟨rfl, rfl⟩ := Prod.mk.inj hr
      rw [if_neg hc]
      dsimp only
      rw [ih hb]
      rfl

lemma angle_mem_of_doctypeBody {depth : ℕ} (h : doctypeBody depth cs = some (body, rest)) :
    '>' ∈ cs := by
  induction cs generalizing depth body rest with
  | nil => cases h
  | cons c cs ih =>
    unfold doctypeBody at h
    split at h
    next hc => simp [hc.1]
    next hc =>
      obtain ⟨⟨b, r⟩, hb, -⟩ := Option.map_eq_some_iff.mp h
      exact .tail _ (ih hb)

/-! ### Steps -/

/-- Where `s` reads a piece with which a part of the text is complete, `s'` reads the same piece,
and `q` is left behind what `s` leaves. In the middle of a tag something must be left. -/
def Continues (q : List Char) (s s' : Step) : Prop :=
  ∀ piece next rest, s = .read piece next rest → (next = .content ∨ rest ≠ []) →
    s' = .read piece next (rest ++ q)

lemma continues_fail {text : List Char} {f : Failure} (s' : Step) :
    Continues q (.fail text f) s' := by
  intro piece next rest hs
  cases hs

lemma continues_read (piece : Piece) (next : Mode) (rest q : List Char) :
    Continues q (.read piece next rest) (.read piece next (rest ++ q)) := by
  intro piece next rest hs _
  cases hs
  rfl

lemma delimited_continues (head mark : String) (content : String → Content) (cs q : List Char) :
    Continues q (delimited head mark content cs) (delimited head mark content (cs ++ q)) := by
  unfold delimited
  split
  next body rest hb =>
    rw [upTo_extend hb]
    apply continues_read
  · apply continues_fail

lemma doctypeStep_continues (cs q : List Char) :
    Continues q (doctypeStep cs) (doctypeStep (cs ++ q)) := by
  unfold doctypeStep
  split
  next body rest hb =>
    rw [doctypeBody_extend hb]
    apply continues_read
  · apply continues_fail

lemma named_continues {head : List Char} {k k' : List Char → List Char → Step}
    (hk : ∀ name, Continues q (k name (cs.dropWhile isNamePart))
      (k' name (cs.dropWhile isNamePart ++ q)))
    (hn : ∀ name piece next rest, k name [] = .read piece next rest → next ≠ .content ∧ rest = []) :
    Continues q (named head cs k) (named head (cs ++ q) k') := by
  intro piece next rest hs hc
  unfold named at hs
  split at hs
  next c tail =>
    split at hs
    next hc' =>
      -- a name is complete when something is left behind it
      have hd : (c :: tail).dropWhile isNamePart ≠ [] := by
        intro hd
        rw [hd] at hs
        obtain ⟨hx, hr⟩ := hn _ _ _ _ hs
        exact hc.elim hx fun h => h hr
      obtain ⟨ht, hd'⟩ := takeWhile_extend hd q
      rw [List.cons_append] at ht hd' ⊢
      rw [named, if_pos hc', ht, hd']
      exact hk _ _ _ _ hs hc
    · cases hs
  · cases hs

lemma instructionStep_continues (cs q : List Char) :
    Continues q (instructionStep cs) (instructionStep (cs ++ q)) := by
  apply named_continues
  · intro name
    split
    next body rest hb =>
      rw [upTo_extend hb]
      apply continues_read
    · apply continues_fail
  · intro name piece next rest hs
    cases hs

lemma closeStep_continues (cs q : List Char) :
    Continues q (closeStep cs) (closeStep (cs ++ q)) := by
  apply named_continues
  · intro name
    dsimp only
    split
    next tail hs =>
      obtain ⟨ht, hd⟩ := takeWhile_extend (by rw [hs]; simp) q
      rw [ht, hd, hs]
      apply continues_read
    · apply continues_fail
  · intro name piece next rest hs
    cases hs

lemma openStep_continues (cs q : List Char) :
    Continues q (openStep cs) (openStep (cs ++ q)) := by
  apply named_continues
  · intro name
    apply continues_read
  · intro name piece next rest hs
    cases hs
    exact ⟨by simp, rfl⟩

lemma textStep_continues (cs tail : List Char) :
    Continues ('<' :: tail) (textStep cs) (textStep (cs ++ '<' :: tail)) := by
  unfold textStep
  dsimp only
  split
  · apply continues_fail
  next hf =>
    rw [run_extend rfl hf]
    dsimp only
    rw [hf]
    apply continues_read

lemma prefix_or_mem_of_append {mark : List Char} (h : mark <+: cs ++ q) :
    mark <+: cs ∨ ∀ c ∈ cs, c ∈ mark := by
  rcases List.prefix_or_prefix_of_prefix h (List.prefix_append cs q) with hp | hp
  · exact .inl hp
  · exact .inr fun c hc => hp.subset hc

lemma contentStep_doctype (hc : ¬ ['-', '-'] <+: cs)
    (hd : ¬ ['[', 'C', 'D', 'A', 'T', 'A', '['] <+: cs) :
    contentStep ('<' :: '!' :: cs) = doctypeStep cs := by
  rw [contentStep]
  · rintro tail rfl
    exact hc ⟨tail, rfl⟩
  · rintro tail rfl
    exact hd ⟨tail, rfl⟩

lemma contentStep_of_ne (hb : c ≠ '!') (hq : c ≠ '?') (hs : c ≠ '/') (cs : List Char) :
    contentStep ('<' :: c :: cs) = openStep (c :: cs) := by
  rw [contentStep]
  all_goals simp_all

lemma doctype_continues (cs tail : List Char) :
    Continues ('<' :: tail) (contentStep ('<' :: '!' :: cs))
      (contentStep ('<' :: '!' :: (cs ++ '<' :: tail))) := by
  by_cases hc : ['-', '-'] <+: cs
  · obtain ⟨cs, rfl⟩ := hc
    apply delimited_continues
  · by_cases hd : ['[', 'C', 'D', 'A', 'T', 'A', '['] <+: cs
    · obtain ⟨cs, rfl⟩ := hd
      apply delimited_continues
    · intro piece next rest hs hn
      rw [contentStep_doctype hc hd] at hs
      have hm : '>' ∈ cs := by
        unfold doctypeStep at hs
        split at hs
        next hb => exact angle_mem_of_doctypeBody hb
        · cases hs
      -- the end of the declaration has been seen, so nothing behind it makes it a comment
      have ho : ∀ {mark}, '>' ∉ mark → ¬ mark <+: cs → ¬ mark <+: cs ++ '<' :: tail := by
        intro mark ha hp hq
        rcases prefix_or_mem_of_append hq with hq | hq
        · exact hp hq
        · exact ha (hq _ hm)
      rw [contentStep_doctype (ho (by decide) hc) (ho (by decide) hd)]
      exact doctypeStep_continues cs _ _ _ _ hs hn

lemma contentStep_continues (h : cs ≠ []) (tail : List Char) :
    Continues ('<' :: tail) (contentStep cs) (contentStep (cs ++ '<' :: tail)) := by
  obtain ⟨c, cs, rfl⟩ := List.exists_cons_of_ne_nil h
  by_cases hc : c = '<'
  · subst hc
    cases cs with
    | nil => apply continues_fail
    | cons d cs =>
      by_cases hb : d = '!'
      · subst hb
        apply doctype_continues
      by_cases hq : d = '?'
      · subst hq
        apply instructionStep_continues
      by_cases hs : d = '/'
      · subst hs
        apply closeStep_continues
      · rw [List.cons_append, List.cons_append, contentStep_of_ne hb hq hs,
          contentStep_of_ne hb hq hs]
        apply openStep_continues
  · rw [List.cons_append, contentStep_text hc, contentStep_text hc]
    apply textStep_continues

lemma spaceStep_continues (hm : mode ≠ .content) (cs q : List Char) :
    Continues q (spaceStep mode cs) (spaceStep mode (cs ++ q)) := by
  intro piece next rest hs hn
  cases hs
  obtain ⟨ht, hd⟩ := takeWhile_extend (hn.resolve_left hm) q
  rw [spaceStep, ht, hd]

lemma tagStep_of_ne (spaced : Bool) (hs : c ≠ '/') (hg : c ≠ '>') (cs : List Char) :
    tagStep spaced (c :: cs) =
      if isSpace c then spaceStep (.tag true) (c :: cs)
      else if spaced then
        named [] (c :: cs) fun name rest =>
          .read (.token (.attributeName (String.ofList name)) name) (.equals (String.ofList name))
            rest
      else .fail [] { cause := .missingSpace } := by
  rw [tagStep]
  all_goals simp_all

lemma tagStep_slash (spaced : Bool) (hg : c ≠ '>') (cs : List Char) :
    tagStep spaced ('/' :: c :: cs) = .fail ['/'] (unexpected (c :: cs)) := by
  rw [tagStep]
  simp [hg]

lemma tagStep_continues (spaced : Bool) (cs q : List Char) :
    Continues q (tagStep spaced cs) (tagStep spaced (cs ++ q)) := by
  cases cs with
  | nil => apply continues_fail
  | cons c cs =>
    by_cases hs : c = '/'
    · subst hs
      cases cs with
      | nil => apply continues_fail
      | cons d cs =>
        by_cases hd : d = '>'
        · subst hd
          apply continues_read
        · rw [tagStep_slash spaced hd]
          apply continues_fail
    by_cases hg : c = '>'
    · subst hg
      apply continues_read
    rw [List.cons_append, tagStep_of_ne spaced hs hg, tagStep_of_ne spaced hs hg]
    split
    · exact spaceStep_continues (by simp) (c :: cs) q
    · split
      · apply named_continues
        · intro name
          apply continues_read
        · intro name piece next rest hr
          cases hr
          exact ⟨by simp, rfl⟩
      · apply continues_fail

lemma equalsStep_of_ne (name : String) (he : c ≠ '=') (cs : List Char) :
    equalsStep name (c :: cs) =
      if isSpace c then spaceStep (.equals name) (c :: cs)
      else .fail [] { cause := .missingValue name } := by
  rw [equalsStep]
  simp [he]

lemma equalsStep_continues (name : String) (cs q : List Char) :
    Continues q (equalsStep name cs) (equalsStep name (cs ++ q)) := by
  cases cs with
  | nil => apply continues_fail
  | cons c cs =>
    by_cases he : c = '='
    · subst he
      apply continues_read
    rw [List.cons_append, equalsStep_of_ne name he, equalsStep_of_ne name he]
    split
    · exact spaceStep_continues (by simp) (c :: cs) q
    · apply continues_fail

lemma quotedStep_continues (quote : Char) (cs tail : List Char) :
    Continues ('<' :: tail) (quotedStep quote cs) (quotedStep quote (cs ++ '<' :: tail)) := by
  unfold quotedStep
  dsimp only
  split
  · apply continues_fail
  next hf =>
    rw [run_extend (by simp) hf]
    dsimp only
    rw [hf]
    split
    next c rest hr =>
      rw [hr]
      dsimp only [List.cons_append]
      split
      · apply continues_read
      · apply continues_fail
    · apply continues_fail

lemma valueStep_continues (name : String) (cs tail : List Char) :
    Continues ('<' :: tail) (valueStep name cs) (valueStep name (cs ++ '<' :: tail)) := by
  cases cs with
  | nil => apply continues_fail
  | cons c cs =>
    rw [List.cons_append, valueStep, valueStep]
    split
    · exact spaceStep_continues (by simp) (c :: cs) _
    · split
      · apply quotedStep_continues
      · apply continues_fail

theorem step_continues (h : mode = .content → cs ≠ []) (tail : List Char) :
    Continues ('<' :: tail) (step mode cs) (step mode (cs ++ '<' :: tail)) := by
  cases mode with
  | content => exact contentStep_continues (h rfl) tail
  | tag spaced => exact tagStep_continues spaced cs _
  | equals name => exact equalsStep_continues name cs _
  | value name => exact valueStep_continues name cs tail

/-! ### Scans -/

lemma scan_nil_fails (h : mode ≠ .content) : (scan mode []).failure ≠ none := by
  cases mode with
  | content => exact absurd rfl h
  | tag spaced =>
    rw [scan]
    exact Option.some_ne_none _
  | equals name =>
    rw [scan]
    exact Option.some_ne_none _
  | value name =>
    rw [scan]
    exact Option.some_ne_none _

theorem scan_append (h : (scan mode cs).failure = none) (tail : List Char) :
    scan mode (cs ++ '<' :: tail) =
      ⟨(scan mode cs).pieces ++ (scan .content ('<' :: tail)).pieces,
        (scan .content ('<' :: tail)).failure⟩ := by
  fun_induction scan mode cs with
  | case1 mode cs hc =>
    obtain ⟨rfl, rfl⟩ := hc
    rfl
  | case2 mode cs hc piece next rest hs ih =>
    -- in the middle of a tag a text cannot end
    have hn : next = .content ∨ rest ≠ [] := by
      by_contra hn
      obtain ⟨hm, hr⟩ := not_or.mp hn
      rw [not_not.mp hr] at h
      exact scan_nil_fails hm h
    have he := step_continues (fun hm hcs => hc ⟨hm, hcs⟩) tail _ _ _ hs hn
    rw [scan, dif_neg (by simp)]
    split
    next hs' =>
      cases he.symm.trans hs'
      rw [ih h]
      rfl
    next hs' => cases he.symm.trans hs'
  | case3 => cases h

/-! ### Tokens -/

lemma scan_of_no_fault {source : String} (h : (tokenize source).fault = none) :
    let s := scan .content (Text.unifyBreakChars source.toList)
    s.failure = none ∧
      (Piece.locate {} s.pieces).2 = Location.after {} (Text.unifyBreakChars source.toList) := by
  obtain ⟨a, done, -, he⟩ := scan_laid source
  rw [tokenize] at h
  intro s
  cases hf : s.failure with
  | none =>
    rw [hf] at he
    cases he with
    | finished _ hd hs =>
      subst hd
      exact ⟨rfl, hs.unique (at_origin.after _)⟩
  | some f => simp [Scan.tokens, s, hf] at h

lemma tokens_append (s t : Scan) :
    let stop := (Piece.locate {} s.pieces).2
    (Scan.mk (s.pieces ++ t.pieces) t.failure).tokens =
      ⟨(Piece.locate {} s.pieces).1 ++ t.tokens.tokens.map (shiftToken stop),
        t.tokens.fault.map (shiftFault stop)⟩ := by
  intro stop
  have hl := locate_shift stop {} t.pieces
  rw [shift_origin] at hl
  rw [Scan.tokens, locate_append, hl, Scan.tokens]
  cases t.failure with
  | none => simp [shiftToken, shiftSpan]
  | some f => simp [shiftToken, shiftFault, shiftSpan, after_shift]

/-- A text that is read to its end, and behind it one that opens with an angle bracket: the tokens
of both follow one another, and the fault, if there is one, is that of the second. -/
theorem tokens_concatenate (p q : String) (hp : (tokenize p).fault = none)
    (hq : q.toList.head? = some '<') :
    ∃ ts stop, (tokenize p).tokens = ts ++ [⟨.eof, stop, stop⟩] ∧
      stop = Location.after {} (Text.unifyBreakChars p.toList) ∧
      (tokenize (p ++ q)).tokens = ts ++ (tokenize q).tokens.map (shiftToken stop) ∧
      (tokenize (p ++ q)).fault = (tokenize q).fault.map (shiftFault stop) := by
  obtain ⟨tail, hq⟩ := List.head?_eq_some_iff.mp hq
  obtain ⟨hf, hs⟩ := scan_of_no_fault hp
  have hc : Text.unifyBreakChars (p ++ q).toList =
      Text.unifyBreakChars p.toList ++ '<' :: Text.unifyBreakChars tail := by
    rw [String.toList_append, hq, unify_append_cons (by decide), unify_cons (by decide)]
  have ht : tokenize (p ++ q) = (Scan.mk _ _).tokens :=
    congrArg Scan.tokens (hc ▸ scan_append hf (Text.unifyBreakChars tail))
  have hq' : (scan .content ('<' :: Text.unifyBreakChars tail)).tokens = tokenize q := by
    rw [tokenize, hq, unify_cons (by decide)]
  rw [ht, tokens_append, hq']
  refine ⟨_, _, ?_, hs, rfl, rfl⟩
  rw [tokenize, Scan.tokens, hf]

/-- The first text ends in a line break of its own, and the fault is on a later line. -/
theorem tokens_concatenate_faulty :
    (tokenize "é\r\n<A/>b\r").fault = none ∧
      (tokenize ("é\r\n<A/>b\r" ++ "<B\r k=1>")).fault =
        some ⟨.unquotedValue "k", ⟨15, 3, 3⟩, ⟨15, 3, 3⟩⟩ := by
  have hp : (tokenize "é\r\n<A/>b\r").fault = none := by decide +kernel
  obtain ⟨ts, stop, -, rfl, -, hf⟩ := tokens_concatenate _ "<B\r k=1>" hp (by decide)
  refine ⟨hp, hf.trans ?_⟩
  decide +kernel

end TuiMarkup.Proofs.Concatenation
