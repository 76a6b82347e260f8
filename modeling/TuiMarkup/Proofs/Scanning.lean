import Mathlib.Data.List.TakeWhile
import Mathlib.Tactic.Lemma
import TuiMarkup.Markup.Scan
import TuiMarkup.Proofs.Rendering

/-! What one step of reading can take off a text, what a failing step shows of it, and the run of
steps that a scan makes. -/

namespace TuiMarkup.Proofs.Scanning

open Markup Rendering

variable {mode : Mode} {cs : List Char} {f : Failure}

inductive Single : Content → Prop
  | text {value : String} : Single (.text value)
  | cdata {value : String} : Single (.cdata value)
  | comment {value : String} : Single (.comment value)
  | instruction {target : String} : Single (.instruction target)
  | doctype : Single .doctype
  | tagClose {name : String} : Single (.tagClose name)

inductive Takes : Mode → Piece → Mode → Prop
  | single {content : Content} {text : List Char} : Single content →
      Takes .content (.token content text) .content
  | start {name : String} {text : List Char} :
      Takes .content (.token (.tagStart name) text) (.tag false)
  | space {spaced : Bool} {text : List Char} : IsSpace text →
      Takes (.tag spaced) (.gap text) (.tag true)
  | stop {spaced : Bool} {text : List Char} : Takes (.tag spaced) (.token .tagEnd text) .content
  | void {spaced : Bool} {text : List Char} : Takes (.tag spaced) (.token .tagEndVoid text) .content
  | name {name : String} {text : List Char} :
      Takes (.tag true) (.token (.attributeName name) text) (.equals name)
  | beforeEquals {name : String} {text : List Char} : IsSpace text →
      Takes (.equals name) (.gap text) (.equals name)
  | equals {name : String} : Takes (.equals name) (.gap ['=']) (.value name)
  | afterEquals {name : String} {text : List Char} : IsSpace text →
      Takes (.value name) (.gap text) (.value name)
  | value {name value : String} {text : List Char} :
      Takes (.value name) (.token (.attributeValue value) text) (.tag false)

/-! ### Failures -/

lemma unexpected_lexeme (cs : List Char) : (unexpected cs).lexeme = [] := by
  cases cs <;> rfl

lemma closeReference_fails {value : Option Char} {text : List Char} {cause : String → Cause}
    (h : closeReference value text cause cs = .error f) : f.lexeme <+: text ++ cs := by
  unfold closeReference at h
  split at h
  · split at h
    · cases h
    · cases h
      exact ⟨_, List.append_assoc ..⟩
  · cases h
    exact List.prefix_append ..

lemma reference_fails (h : reference cs = .error f) : f.lexeme <+: '&' :: cs := by
  unfold reference numericReference at h
  split at h
  all_goals
    have hp := closeReference_fails h
    simpa [List.takeWhile_append_dropWhile] using hp

lemma run_fails {halts : Char → Bool} {spell : Char → Char}
    (h : (run halts spell cs).failure = some f) :
    (run halts spell cs).text ++ f.lexeme <+: cs := by
  fun_induction run halts spell cs with
  | case1 => cases h
  | case2 => cases h
  | case3 cs r hr _ ih =>
    have he := (reference_eq hr).1
    simp only [Run.cons] at h ⊢
    rw [List.append_assoc, ← he, List.prefix_append_right_inj]
    exact ih h
  | case4 cs f hr =>
    cases h
    exact reference_fails hr
  | case5 c cs _ _ ih =>
    simp only [Run.cons] at h ⊢
    exact List.cons_prefix_cons.mpr ⟨rfl, ih h⟩

/-! ### Steps -/

/-- What a step reads fits the mode; what a failing step shows begins the text. -/
def Sound (mode : Mode) (cs : List Char) : Step → Prop
  | .read piece next _ => Takes mode piece next
  | .fail text failure => text ++ failure.lexeme <+: cs

lemma sound_fail {text : List Char} (hl : f.lexeme = []) (h : text <+: cs) :
    Sound mode cs (.fail text f) := by
  rw [Sound, hl, List.append_nil]
  exact h

lemma delimited_sound {opening mark : String} {content : String → Content} (cs : List Char)
    (h : ∀ body, Single (content body)) :
    Sound .content (opening.toList ++ cs) (delimited opening mark content cs) := by
  unfold delimited
  split
  · exact .single (h _)
  · exact sound_fail rfl List.prefix_rfl

lemma doctypeStep_sound (cs : List Char) :
    Sound .content ('<' :: '!' :: cs) (doctypeStep cs) := by
  unfold doctypeStep
  split
  · exact .single .doctype
  · exact sound_fail rfl List.prefix_rfl

lemma named_sound (head : List Char) {k : List Char → List Char → Step}
    (h : ∀ name rest, name ++ rest = cs → Sound mode (head ++ cs) (k name rest)) :
    Sound mode (head ++ cs) (named head cs k) := by
  unfold named
  split
  · split
    · exact h _ _ List.takeWhile_append_dropWhile
    · exact sound_fail (unexpected_lexeme _) (List.prefix_append ..)
  · exact sound_fail (unexpected_lexeme _) (List.prefix_append ..)

lemma instructionStep_sound (cs : List Char) :
    Sound .content ('<' :: '?' :: cs) (instructionStep cs) := by
  refine named_sound ['<', '?'] fun name rest _ => ?_
  split
  · exact .single .instruction
  · exact sound_fail rfl List.prefix_rfl

lemma closeStep_sound (cs : List Char) :
    Sound .content ('<' :: '/' :: cs) (closeStep cs) := by
  refine named_sound ['<', '/'] fun name rest hn => ?_
  dsimp only
  split
  · exact .single .tagClose
  · apply sound_fail (unexpected_lexeme _)
    have hs : rest.takeWhile isSpace <+: rest := List.takeWhile_prefix _
    simpa [← hn] using hs

lemma openStep_sound (cs : List Char) : Sound .content ('<' :: cs) (openStep cs) :=
  named_sound ['<'] fun _ _ _ => .start

lemma textStep_sound (cs : List Char) : Sound .content cs (textStep cs) := by
  unfold textStep
  dsimp only
  split
  next hf => exact run_fails hf
  · exact .single .text

lemma contentStep_sound (cs : List Char) : Sound .content cs (contentStep cs) := by
  unfold contentStep
  split
  · exact delimited_sound _ fun _ => .comment
  · exact delimited_sound _ fun _ => .cdata
  · exact doctypeStep_sound _
  · exact instructionStep_sound _
  · exact closeStep_sound _
  · exact openStep_sound _
  · exact textStep_sound _

lemma isSpace_takeWhile (cs : List Char) : IsSpace (cs.takeWhile isSpace) :=
  fun _ hc => List.mem_takeWhile_imp hc

lemma tagStep_sound (spaced : Bool) (cs : List Char) :
    Sound (.tag spaced) cs (tagStep spaced cs) := by
  unfold tagStep
  split
  · exact sound_fail rfl List.prefix_rfl
  · exact .void
  next cs _ => exact sound_fail (unexpected_lexeme cs) ⟨cs, rfl⟩
  · exact .stop
  next c cs _ _ _ =>
    split
    · exact .space (isSpace_takeWhile _)
    · split
      next hs => exact named_sound [] fun _ _ _ => hs ▸ .name
      · exact sound_fail rfl List.nil_prefix

lemma equalsStep_sound (name : String) (cs : List Char) :
    Sound (.equals name) cs (equalsStep name cs) := by
  unfold equalsStep
  split
  · exact .equals
  · split
    · exact .beforeEquals (isSpace_takeWhile _)
    · exact sound_fail rfl List.nil_prefix
  · exact sound_fail rfl List.nil_prefix

lemma quotedStep_sound (name : String) (quote : Char) (cs : List Char) :
    Sound (.value name) (quote :: cs) (quotedStep quote cs) := by
  unfold quotedStep
  dsimp only
  split
  next hf => exact List.cons_prefix_cons.mpr ⟨rfl, run_fails hf⟩
  next hf =>
    have hp : ∀ {text}, text = (run (fun c => c == quote || c == '<') spellInValue cs).text →
        quote :: text <+: quote :: cs := by
      rintro _ rfl
      exact List.cons_prefix_cons.mpr ⟨rfl, _, run_eq hf⟩
    split
    · split
      · exact .value
      · exact sound_fail rfl (hp rfl)
    · exact sound_fail rfl (hp rfl)

lemma valueStep_sound (name : String) (cs : List Char) :
    Sound (.value name) cs (valueStep name cs) := by
  unfold valueStep
  split
  · split
    · exact .afterEquals (isSpace_takeWhile _)
    · split
      · exact quotedStep_sound name _ _
      · exact sound_fail rfl List.nil_prefix
  · exact sound_fail rfl List.nil_prefix

theorem step_sound (mode : Mode) (cs : List Char) : Sound mode cs (step mode cs) := by
  cases mode with
  | content => exact contentStep_sound cs
  | tag spaced => exact tagStep_sound spaced cs
  | equals name => exact equalsStep_sound name cs
  | value name => exact valueStep_sound name cs

/-! ### Scans -/

inductive Walks : Mode → List Char → Scan → Prop
  | done : Walks .content [] ⟨[], none⟩
  | fail {mode : Mode} {cs text : List Char} {f : Failure} : text ++ f.lexeme <+: cs →
      Walks mode cs ⟨[.gap text], some f⟩
  | read {mode next : Mode} {piece : Piece} {rest : List Char} {s : Scan} :
      Takes mode piece next → piece.text ≠ [] → Walks next rest s →
      Walks mode (piece.text ++ rest) (s.cons piece)

theorem scan_walks (mode : Mode) (cs : List Char) : Walks mode cs (scan mode cs) := by
  fun_induction scan mode cs with
  | case1 mode cs h =>
    obtain ⟨rfl, rfl⟩ := h
    exact .done
  | case2 mode cs h piece next rest hs ih =>
    have hp := step_splits fun hm hc => h ⟨hm, hc⟩
    have ht := step_sound mode cs
    rw [hs] at hp ht
    rw [← hp.1]
    exact .read ht hp.2 ih
  | case3 mode cs h text failure hs =>
    have ht := step_sound mode cs
    rw [hs] at ht
    exact .fail ht

end TuiMarkup.Proofs.Scanning
