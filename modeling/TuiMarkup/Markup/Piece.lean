import TuiMarkup.Markup.Reference
import TuiMarkup.Markup.Token

/-!
Pieces of markup. A piece either makes a token or is a gap: the white space and the equals signs
inside a start tag. `step` takes one piece off the front of a text, or fails; `step_splits` says that
nothing is lost by it.
-/

namespace TuiMarkup.Markup

/-! ### Stretches of text -/

def upTo (mark : List Char) : List Char → Option (List Char × List Char)
  | [] => none
  | c :: cs =>
    match Text.afterStartChars? mark (c :: cs) with
    | some rest => some ([], rest)
    | none => (upTo mark cs).map fun (before, rest) => (c :: before, rest)

theorem upTo_eq {mark cs before rest : List Char} (h : upTo mark cs = some (before, rest)) :
    before ++ mark ++ rest = cs := by
  induction cs generalizing before with
  | nil => simp [upTo] at h
  | cons c cs ih =>
    unfold upTo at h
    split at h
    · next hm =>
      simp only [Option.some.injEq, Prod.mk.injEq] at h
      obtain ⟨rfl, rfl⟩ := h
      exact (Text.afterStartChars?_eq_some.1 hm).symm
    · simp only [Option.map_eq_some_iff, Prod.exists, Prod.mk.injEq] at h
      obtain ⟨b, r, hb, rfl, rfl⟩ := h
      simpa using ih hb

/-- The rest of a document type up to and with the `>` that ends it, which stands outside all square
brackets. -/
def doctypeBody : Nat → List Char → Option (List Char × List Char)
  | _, [] => none
  | depth, c :: cs =>
    if c = '>' ∧ depth = 0 then some ([c], cs)
    else
      let depth := if c = '[' then depth + 1 else if c = ']' then depth - 1 else depth
      (doctypeBody depth cs).map fun (body, rest) => (c :: body, rest)

theorem doctypeBody_eq {depth : Nat} {cs body rest : List Char}
    (h : doctypeBody depth cs = some (body, rest)) : body ++ rest = cs := by
  induction cs generalizing depth body with
  | nil => simp [doctypeBody] at h
  | cons c cs ih =>
    unfold doctypeBody at h
    split at h
    · simp only [Option.some.injEq, Prod.mk.injEq] at h
      obtain ⟨rfl, rfl⟩ := h
      rfl
    · simp only [Option.map_eq_some_iff, Prod.exists, Prod.mk.injEq] at h
      obtain ⟨b, r, hb, rfl, rfl⟩ := h
      simpa using ih hb

/-! ### Steps -/

inductive Piece where
  | token (content : Content) (text : List Char)
  | gap (text : List Char)
deriving DecidableEq, Repr

def Piece.text : Piece → List Char
  | token _ text => text
  | gap text => text

inductive Mode where
  | content
  /-- In a start tag; `spaced` tells whether white space has just been read. -/
  | tag (spaced : Bool)
  | equals (name : String)
  | value (name : String)
deriving DecidableEq, Repr

inductive Step where
  | read (piece : Piece) (next : Mode) (rest : List Char)
  | fail (text : List Char) (failure : Failure)
deriving DecidableEq, Repr

def delimited (head mark : String) (content : String → Content) (cs : List Char) : Step :=
  match upTo mark.toList cs with
  | some (body, rest) =>
    .read (.token (content (String.ofList body)) (head.toList ++ body ++ mark.toList)) .content rest
  | none => .fail (head.toList ++ cs) { cause := .unexpectedEnd }

def doctypeStep (cs : List Char) : Step :=
  match doctypeBody 0 cs with
  | some (body, rest) => .read (.token .doctype ('<' :: '!' :: body)) .content rest
  | none => .fail ('<' :: '!' :: cs) { cause := .unexpectedEnd }

def named (head : List Char) (cs : List Char) (k : List Char → List Char → Step) : Step :=
  match cs with
  | c :: _ => if isNameStart c then k (cs.takeWhile isNamePart) (cs.dropWhile isNamePart)
    else .fail head (unexpected cs)
  | [] => .fail head (unexpected cs)

def instructionStep (cs : List Char) : Step :=
  named ['<', '?'] cs fun name rest =>
    match upTo ['?', '>'] rest with
    | some (body, rest) =>
      .read (.token (.instruction (String.ofList name))
        ('<' :: '?' :: name ++ body ++ ['?', '>'])) .content rest
    | none => .fail ('<' :: '?' :: cs) { cause := .unexpectedEnd }

def closeStep (cs : List Char) : Step :=
  named ['<', '/'] cs fun name rest =>
    let text := '<' :: '/' :: name ++ rest.takeWhile isSpace
    match rest.dropWhile isSpace with
    | '>' :: rest => .read (.token (.tagClose (String.ofList name)) (text ++ ['>'])) .content rest
    | rest => .fail text (unexpected rest)

def openStep (cs : List Char) : Step :=
  named ['<'] cs fun name rest =>
    .read (.token (.tagStart (String.ofList name)) ('<' :: name)) (.tag false) rest

def textStep (cs : List Char) : Step :=
  let r := run (· == '<') id cs
  match r.failure with
  | some failure => .fail r.text failure
  | none => .read (.token (.text (String.ofList r.value)) r.text) .content r.rest

def contentStep : List Char → Step
  | '<' :: '!' :: '-' :: '-' :: cs => delimited "<!--" "-->" .comment cs
  | '<' :: '!' :: '[' :: 'C' :: 'D' :: 'A' :: 'T' :: 'A' :: '[' :: cs =>
    delimited "<![CDATA[" "]]>" .cdata cs
  | '<' :: '!' :: cs => doctypeStep cs
  | '<' :: '?' :: cs => instructionStep cs
  | '<' :: '/' :: cs => closeStep cs
  | '<' :: cs => openStep cs
  | cs => textStep cs

def spaceStep (mode : Mode) (cs : List Char) : Step :=
  .read (.gap (cs.takeWhile isSpace)) mode (cs.dropWhile isSpace)

def tagStep (spaced : Bool) : List Char → Step
  | [] => .fail [] (unexpected [])
  | '/' :: '>' :: cs => .read (.token .tagEndVoid ['/', '>']) .content cs
  | '/' :: cs => .fail ['/'] (unexpected cs)
  | '>' :: cs => .read (.token .tagEnd ['>']) .content cs
  | c :: cs =>
    if isSpace c then spaceStep (.tag true) (c :: cs)
    else if spaced then
      named [] (c :: cs) fun name rest =>
        .read (.token (.attributeName (String.ofList name)) name) (.equals (String.ofList name)) rest
    else .fail [] { cause := .missingSpace }

def equalsStep (name : String) : List Char → Step
  | '=' :: cs => .read (.gap ['=']) (.value name) cs
  | c :: cs =>
    if isSpace c then spaceStep (.equals name) (c :: cs)
    else .fail [] { cause := .missingValue name }
  | [] => .fail [] { cause := .missingValue name }

def spellInValue (c : Char) : Char :=
  if c = '\t' ∨ c = '\n' ∨ c = '\r' then ' ' else c

def quotedStep (quote : Char) (cs : List Char) : Step :=
  let r := run (fun c => c == quote || c == '<') spellInValue cs
  match r.failure with
  | some failure => .fail (quote :: r.text) failure
  | none =>
    match r.rest with
    | c :: rest =>
      if c = quote then
        .read (.token (.attributeValue (String.ofList r.value)) (quote :: r.text ++ [quote]))
          (.tag false) rest
      else .fail (quote :: r.text) { cause := .angleInValue }
    | [] => .fail (quote :: r.text) (unexpected [])

def valueStep (name : String) : List Char → Step
  | c :: cs =>
    if isSpace c then spaceStep (.value name) (c :: cs)
    else if isQuote c then quotedStep c cs
    else .fail [] { cause := .unquotedValue name }
  | [] => .fail [] { cause := .unquotedValue name }

def step : Mode → List Char → Step
  | .content, cs => contentStep cs
  | .tag spaced, cs => tagStep spaced cs
  | .equals name, cs => equalsStep name cs
  | .value name, cs => valueStep name cs

/-! ### Nothing is lost -/

def Step.Splits (cs : List Char) : Step → Prop
  | read piece _ rest => piece.text ++ rest = cs ∧ piece.text ≠ []
  | fail _ _ => True

theorem delimited_splits {head mark : String} {content : String → Content} (cs : List Char)
    (h : head.toList ≠ []) : (delimited head mark content cs).Splits (head.toList ++ cs) := by
  unfold delimited
  split
  · next hb => simpa [Step.Splits, Piece.text, h] using upTo_eq hb
  · trivial

theorem doctypeStep_splits (cs : List Char) : (doctypeStep cs).Splits ('<' :: '!' :: cs) := by
  unfold doctypeStep
  split
  · next hb => simpa [Step.Splits, Piece.text] using doctypeBody_eq hb
  · trivial

theorem named_splits (head : List Char) {cs : List Char} {k : List Char → List Char → Step}
    (h : ∀ name rest, name ≠ [] → name ++ rest = cs → (k name rest).Splits (head ++ cs)) :
    (named head cs k).Splits (head ++ cs) := by
  unfold named
  split
  · next c tail =>
    split
    · next hc =>
      exact h _ _ (by simp [isNamePart, hc]) List.takeWhile_append_dropWhile
    · trivial
  · trivial

theorem instructionStep_splits (cs : List Char) :
    (instructionStep cs).Splits ('<' :: '?' :: cs) := by
  refine named_splits ['<', '?'] fun name rest _ hn => ?_
  split
  · next hb =>
    have := upTo_eq hb
    simp only [Step.Splits, Piece.text, ← hn, ← this]
    simp
  · trivial

theorem closeStep_splits (cs : List Char) : (closeStep cs).Splits ('<' :: '/' :: cs) := by
  refine named_splits ['<', '/'] fun name rest _ hn => ?_
  dsimp only
  split
  · next tail hs =>
    have := List.takeWhile_append_dropWhile (p := isSpace) (l := rest)
    rw [hs] at this
    simp only [Step.Splits, Piece.text, ← hn]
    simpa using this
  · trivial

theorem openStep_splits (cs : List Char) : (openStep cs).Splits ('<' :: cs) :=
  named_splits ['<'] fun name rest _ hn => by simp [Step.Splits, Piece.text, ← hn]

theorem textStep_splits {c : Char} (cs : List Char) (h : c ≠ '<') :
    (textStep (c :: cs)).Splits (c :: cs) := by
  unfold textStep
  dsimp only
  split
  · trivial
  · next hf =>
    exact ⟨run_eq hf, run_text_ne_nil (by simpa using h) hf⟩

theorem contentStep_splits {cs : List Char} (h : cs ≠ []) : (contentStep cs).Splits cs := by
  unfold contentStep
  split
  · exact delimited_splits _ (by decide)
  · exact delimited_splits _ (by decide)
  · exact doctypeStep_splits _
  · exact instructionStep_splits _
  · exact closeStep_splits _
  · exact openStep_splits _
  · cases cs with
    | nil => exact absurd rfl h
    | cons c cs =>
      refine textStep_splits cs ?_
      rintro rfl
      simp_all

theorem spaceStep_splits {mode : Mode} {c : Char} (cs : List Char) (h : isSpace c) :
    (spaceStep mode (c :: cs)).Splits (c :: cs) :=
  ⟨List.takeWhile_append_dropWhile, by simp [Piece.text, h]⟩

theorem tagStep_splits (spaced : Bool) (cs : List Char) : (tagStep spaced cs).Splits cs := by
  unfold tagStep
  split
  · trivial
  · simp [Step.Splits, Piece.text]
  · trivial
  · simp [Step.Splits, Piece.text]
  · split
    · next h => exact spaceStep_splits _ h
    · split
      · exact named_splits [] fun name rest h hn => ⟨hn, h⟩
      · trivial

theorem equalsStep_splits (name : String) (cs : List Char) : (equalsStep name cs).Splits cs := by
  unfold equalsStep
  split
  · simp [Step.Splits, Piece.text]
  · split
    · next h => exact spaceStep_splits _ h
    · trivial
  · trivial

theorem quotedStep_splits (quote : Char) (cs : List Char) :
    (quotedStep quote cs).Splits (quote :: cs) := by
  unfold quotedStep
  dsimp only
  split
  · trivial
  · next hf =>
    have he := run_eq hf
    split
    · next c rest hr =>
      split
      · next hc =>
        refine ⟨?_, by simp [Piece.text]⟩
        rw [hr, hc] at he
        simpa [Piece.text] using he
      · trivial
    · trivial

theorem valueStep_splits (name : String) (cs : List Char) : (valueStep name cs).Splits cs := by
  unfold valueStep
  split
  · split
    · next h => exact spaceStep_splits _ h
    · split
      · exact quotedStep_splits _ _
      · trivial
  · trivial

theorem step_splits {mode : Mode} {cs : List Char} (h : mode = .content → cs ≠ []) :
    (step mode cs).Splits cs := by
  cases mode with
  | content => exact contentStep_splits (h rfl)
  | tag spaced => exact tagStep_splits spaced cs
  | equals name => exact equalsStep_splits name cs
  | value name => exact valueStep_splits name cs

theorem length_step_rest {mode next : Mode} {cs rest : List Char} {piece : Piece}
    (h : mode = .content → cs ≠ []) (hs : step mode cs = .read piece next rest) :
    rest.length < cs.length := by
  have hp := step_splits h
  rw [hs] at hp
  rw [← hp.1, List.length_append]
  have := List.length_pos_iff.2 hp.2
  omega

end TuiMarkup.Markup
