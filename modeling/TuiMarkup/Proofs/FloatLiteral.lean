import Mathlib.Tactic.Lemma
import TuiMarkup.Code.Literal
import TuiMarkup.Proofs.Decimals
import TuiMarkup.Proofs.Splitting

/-! The constants of single precision that decimals are written as. -/

namespace TuiMarkup.Proofs.FloatLiteral

open Decimals Splitting

/-- The spellings that code takes for a real number: a point has a digit after it, and without a
point there are digits before the exponent or the suffix. -/
def WellFormed (s : Spelling) : Prop :=
  match s.fraction? with
  | none => s.whole ≠ []
  | some ds => ds ≠ []

def constant (s : Spelling) : String :=
  s.text ++ "f"

def Dangling (s : Spelling) : Prop :=
  s.fraction? = some [] ∧ s.exponent?.isSome

def completed (s : Spelling) : Spelling :=
  if s.fraction = [] ∧ s.exponent? = none then { s with fraction? := some [0] } else s

variable {s : Spelling} {value : String} {cs : List Char} {ds : List (Fin 10)}

/-! ### Completed spellings -/

lemma completed_value (s : Spelling) : (completed s).value = s.value := by
  unfold completed
  split
  next h =>
    have hf : (wholeValue s.whole + fractionValue [0] : ℚ) =
        wholeValue s.whole + fractionValue s.fraction := by
      rw [h.1]
      simp [fractionValue]
    change s.sign.factor * (wholeValue s.whole + fractionValue [0] : ℚ) * 10 ^ s.power = s.value
    rw [hf]
    rfl
  · rfl

lemma wellFormed_completed (h : s.Readable) : WellFormed (completed s) ↔ ¬ Dangling s := by
  cases hf : s.fraction? with
  | none =>
    have hw : s.whole ≠ [] := by simpa [Spelling.Readable, Spelling.fraction, hf] using h
    have hd : ¬ Dangling s := by simp [Dangling, hf]
    refine iff_of_true ?_ hd
    unfold completed
    split
    · simp [WellFormed]
    · simpa [WellFormed, hf] using hw
  | some ds =>
    cases he : s.exponent? <;> by_cases hd : ds = [] <;>
      simp [completed, WellFormed, Dangling, Spelling.fraction, hf, he, hd]

/-! ### The code of a decimal -/

lemma beforeEnd?_run (cs : List Char) (h : ds ≠ []) :
    Text.beforeEnd? "." (String.ofList (cs ++ run ds)) = none := by
  rw [Option.eq_none_iff_forall_ne_some]
  intro q hq
  have hl := congrArg (fun v : String => v.toList.getLast?) (beforeEnd?_eq_some.mp hq)
  have hr : run ds ≠ [] := mt run_eq_nil.mp h
  have hm : '.' ∈ run ds := by
    apply List.mem_of_mem_getLast?
    simpa [List.getLast?_append_of_ne_nil _ hr] using hl
  exact absurd (isDecimalDigit_of_mem_run hm) (by decide)

def suffixed (value : String) : String :=
  match Text.beforeEnd? "." value with
  | some whole => whole ++ ".0f"
  | none =>
    if value.toList.any fun c => c == '.' || c == 'e' || c == 'E' then value ++ "f"
    else value ++ ".0f"

lemma floatCode?_text (h : s.Readable) : Literal.floatCode? s.text =
    if |s.value| < 2 ^ 128 - 2 ^ 103 then some (suffixed s.text) else none := by
  have hf := fitsSingle_iff s.decimal
  rw [s.magnitude_decimal] at hf
  unfold Literal.floatCode? suffixed
  rw [readDecimal?_text h]
  by_cases hb : |s.value| < 2 ^ 128 - 2 ^ 103
  · have ht : s.decimal.fitsSingle = true := hf.mpr hb
    simp only [Option.bind_eq_bind, Option.bind_some, ht, Bool.not_true, Bool.false_eq_true,
      if_false, if_pos hb]
    cases Text.beforeEnd? "." s.text with
    | some whole => rfl
    | none => exact (apply_ite some ..).symm
  · have ht : s.decimal.fitsSingle = false := Bool.eq_false_iff.mpr (mt hf.mp hb)
    simp [ht, hb]

lemma suffixed_of_run (cs : List Char) (h : ds ≠ []) (hm : '.' ∈ cs ∨ 'e' ∈ cs ∨ 'E' ∈ cs) :
    suffixed (String.ofList (cs ++ run ds)) = String.ofList (cs ++ run ds) ++ "f" := by
  have ha : ((cs ++ run ds).any fun c => c == '.' || c == 'e' || c == 'E') = true := by
    rw [List.any_append, Bool.or_eq_true]
    left
    rw [List.any_eq_true]
    rcases hm with hm | hm | hm <;> exact ⟨_, hm, rfl⟩
  simp only [suffixed, beforeEnd?_run cs h, String.toList_ofList, ha, if_true]

lemma constant_completed (hf : s.fraction = []) (he : s.exponent? = none) :
    constant (completed s) = String.ofList (s.sign.text ++ run s.whole) ++ ".0f" := by
  have hc : completed s = { s with fraction? := some [0] } := if_pos ⟨hf, he⟩
  have hz : run [0] = ['0'] := rfl
  rw [hc, constant, ← String.toList_inj]
  simp [Spelling.text, Spelling.body, Spelling.point, Spelling.scale, he, hz]

lemma suffixed_run (sign : Sign) (h : ds ≠ []) :
    suffixed (String.ofList (sign.text ++ run ds)) =
      String.ofList (sign.text ++ run ds) ++ ".0f" := by
  have hd : ∀ c, Text.isDecimalDigit c = true → ¬(c = '.' ∨ c = 'e' ∨ c = 'E') := by
    rintro c hc (rfl | rfl | rfl) <;> exact absurd hc (by decide)
  have hs : ∀ c ∈ sign.text, ¬(c = '.' ∨ c = 'e' ∨ c = 'E') := by
    cases sign <;> simp [Sign.text]
  have ha : ((sign.text ++ run ds).any fun c => c == '.' || c == 'e' || c == 'E') = false := by
    rw [List.any_eq_false]
    intro c hc
    have hn : ¬(c = '.' ∨ c = 'e' ∨ c = 'E') :=
      (List.mem_append.mp hc).elim (hs c) fun hc => hd c (isDecimalDigit_of_mem_run hc)
    simpa [or_assoc] using hn
  simp only [suffixed, beforeEnd?_run _ h, String.toList_ofList, ha, Bool.false_eq_true, if_false]

lemma suffixed_text (h : s.Readable) : suffixed s.text = constant (completed s) := by
  cases he : s.exponent? with
  | some e =>
    have hc : completed s = s := if_neg (by simp [he])
    have ht : s.text = String.ofList
        ((s.sign.text ++ run s.whole ++ s.point ++ e.mark :: e.sign.text) ++ run e.digits) := by
      simp [Spelling.text, Spelling.body, Spelling.scale, he, Exponent.text, Exponent.number]
    rw [hc, constant, ht]
    -- the text ends with the digits of the exponent, so the point before them is not seen
    apply suffixed_of_run _ e.ne_nil
    right
    unfold Exponent.mark
    split <;> simp
  | none =>
    have hx : s.scale = [] := by simp [Spelling.scale, he]
    cases hf : s.fraction? with
    | none =>
      have hn : s.fraction = [] := by simp [Spelling.fraction, hf]
      have hw : s.whole ≠ [] := h.resolve_right (not_not.mpr hn)
      have ht : s.text = String.ofList (s.sign.text ++ run s.whole) := by
        simp [Spelling.text, Spelling.body, Spelling.point, hf, hx]
      rw [constant_completed hn he, ht, suffixed_run s.sign hw]
    | some ds =>
      by_cases hd : ds = []
      · subst hd
        have hn : s.fraction = [] := by simp [Spelling.fraction, hf]
        have ht : s.text = String.ofList (s.sign.text ++ run s.whole) ++ "." := by
          rw [← String.toList_inj]
          simp [Spelling.text, Spelling.body, Spelling.point, hf, hx, run]
        rw [constant_completed hn he, suffixed, beforeEnd?_eq_some.mpr ht]
      · have hc : completed s = s := if_neg (by simp [Spelling.fraction, hf, hd])
        have ht : s.text = String.ofList ((s.sign.text ++ run s.whole ++ ['.']) ++ run ds) := by
          simp [Spelling.text, Spelling.body, Spelling.point, hf, hx]
        rw [hc, constant, ht]
        apply suffixed_of_run _ hd
        simp

/-! ### Values of attributes -/

lemma ofValue_float (h : ¬('(' ∈ value.toList ∧ ')' ∈ value.toList)) :
    Literal.ofValue value (some .float) =
      Literal.orVerbatim value "a decimal number" (Literal.floatCode? (Text.trim value)) := by
  have hc : looksLikeCode value = false := by simpa [looksLikeCode, Text.hasChar] using h
  simp [Literal.ofValue, hc]

lemma ofValue_text (h : ¬('(' ∈ value.toList ∧ ')' ∈ value.toList)) (hr : s.Readable)
    (ht : Text.trim value = s.text) (hb : |s.value| < 2 ^ 128 - 2 ^ 103) :
    Literal.ofValue value (some .float) = .converted (constant (completed s)) := by
  rw [ofValue_float h, ht, floatCode?_text hr, if_pos hb, suffixed_text hr]
  rfl

lemma exists_of_converted {code : String} (h : ¬('(' ∈ value.toList ∧ ')' ∈ value.toList))
    (hc : Literal.ofValue value (some .float) = .converted code) :
    ∃ s : Spelling, s.Readable ∧ Text.trim value = s.text ∧ |s.value| < 2 ^ 128 - 2 ^ 103 := by
  rw [ofValue_float h] at hc
  cases hf : Literal.floatCode? (Text.trim value) with
  | none =>
    rw [hf] at hc
    cases hc
  | some code =>
    have hd : ∃ d, Text.readDecimal? (Text.trim value) = some d := by
      cases hd : Text.readDecimal? (Text.trim value) with
      | none => simp [Literal.floatCode?, hd] at hf
      | some d => exact ⟨d, rfl⟩
    obtain ⟨d, hd⟩ := hd
    obtain ⟨s, hr, ht⟩ := exists_spelling hd
    refine ⟨s, hr, ht, ?_⟩
    by_contra hb
    rw [ht, floatCode?_text hr, if_neg hb] at hf
    cases hf

lemma constant_injective {s t : Spelling} (h : constant s = constant t) : s = t :=
  Spelling.text_injective (String.append_left_inj "f" |>.mp h)

/-- A decimal below the bound of single precision is converted, and its constant is one that code
takes for the same number, unless its exponent comes right after the point. -/
theorem float_constants (value : String) (h : ¬('(' ∈ value.toList ∧ ')' ∈ value.toList)) :
    ((∃ code, Literal.ofValue value (some .float) = .converted code) ↔
      ∃ s : Spelling, s.Readable ∧ Text.trim value = s.text ∧
        |s.value| < 2 ^ 128 - 2 ^ 103) ∧
    ∀ (s : Spelling) (code : String), s.Readable → Text.trim value = s.text →
      Literal.ofValue value (some .float) = .converted code →
        ((∃ t, WellFormed t ∧ code = constant t ∧ t.value = s.value) ↔ ¬ Dangling s) := by
  refine ⟨⟨?_, ?_⟩, ?_⟩
  · rintro ⟨code, hc⟩
    exact exists_of_converted h hc
  · rintro ⟨s, hr, ht, hb⟩
    exact ⟨_, ofValue_text h hr ht hb⟩
  · intro s code hr ht hc
    obtain ⟨s', -, ht', hb⟩ := exists_of_converted h hc
    obtain rfl : s = s' := Spelling.text_injective (ht.symm.trans ht')
    rw [ofValue_text h hr ht hb, Literal.converted.injEq] at hc
    subst hc
    rw [← wellFormed_completed hr]
    constructor
    -- no other spelling has the same constant, so that of the code is the one to look at
    · rintro ⟨t, hw, hc, -⟩
      rwa [constant_injective hc]
    · intro hw
      exact ⟨_, hw, rfl, completed_value s⟩

theorem float_constants_bare_point :
    ¬('(' ∈ " 5.".toList ∧ ')' ∈ " 5.".toList) ∧
      ∃ code t, Literal.ofValue " 5." (some .float) = .converted code ∧ WellFormed t ∧
        code = constant t ∧ t.value = 5 := by
  have hp : ¬('(' ∈ " 5.".toList ∧ ')' ∈ " 5.".toList) := by decide
  let s : Spelling := ⟨.absent, [5], some [], none⟩
  have hr : s.Readable := Or.inl (by simp [s])
  have ht : Text.trim " 5." = s.text := by decide +kernel
  have hv : s.value = 5 := by
    simp [s, Spelling.value, Spelling.power, Spelling.fraction, Sign.factor, wholeValue,
      fractionValue]
  have hb : |s.value| < 2 ^ 128 - 2 ^ 103 := by
    rw [hv]
    norm_num
  obtain ⟨hc, hw⟩ := float_constants " 5." hp
  obtain ⟨code, hc⟩ := hc.mpr ⟨s, hr, ht, hb⟩
  obtain ⟨t, htw, hct, htv⟩ := (hw s code hr ht hc).mpr (by simp [Dangling, s])
  exact ⟨hp, code, t, hc, htw, hct, htv.trans hv⟩

theorem point_left_bare :
    ¬('(' ∈ "5.e3".toList ∧ ')' ∈ "5.e3".toList) ∧
      Literal.ofValue "5.e3" (some .float) = .converted "5.e3f" ∧
        ¬∃ t, WellFormed t ∧ "5.e3f" = constant t := by
  have hp : ¬('(' ∈ "5.e3".toList ∧ ')' ∈ "5.e3".toList) := by decide
  let s : Spelling := ⟨.absent, [5], some [], some ⟨false, .absent, [3], by decide⟩⟩
  have hr : s.Readable := Or.inl (by simp [s])
  have ht : Text.trim "5.e3" = s.text := by decide +kernel
  have hcode : "5.e3f" = constant s := by decide +kernel
  have hb : |s.value| < 2 ^ 128 - 2 ^ 103 := by
    norm_num [s, Spelling.value, Spelling.power, Spelling.fraction, Exponent.value, Sign.factor,
      wholeValue, fractionValue]
  refine ⟨hp, ?_, ?_⟩
  · rw [ofValue_text hp hr ht hb, hcode]
    rfl
  · rintro ⟨t, hw, hc⟩
    rw [hcode] at hc
    obtain rfl := constant_injective hc
    exact hw rfl

end TuiMarkup.Proofs.FloatLiteral
