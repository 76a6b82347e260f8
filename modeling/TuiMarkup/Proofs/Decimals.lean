import Mathlib.Algebra.Order.Field.Power
import Mathlib.Data.List.TakeWhile
import Mathlib.Tactic.FieldSimp
import Mathlib.Tactic.Lemma
import Mathlib.Tactic.Linarith
import Mathlib.Tactic.NormNum
import Mathlib.Tactic.Positivity
import Mathlib.Tactic.Ring
import TuiMarkup.Text.Decimal

/-!
Decimals by their parts: a sign, digits around an optional point, and an optional exponent. Reading
accepts exactly the texts of such parts that have a digit before the exponent, and gives the
rational number they stand for.
-/

namespace TuiMarkup.Proofs.Decimals

open Text

def digitChar (d : Fin 10) : Char :=
  Char.ofNat (48 + d.val)

def run (ds : List (Fin 10)) : List Char :=
  ds.map digitChar

def wholeValue : List (Fin 10) → ℕ
  | [] => 0
  | d :: ds => d.val * 10 ^ ds.length + wholeValue ds

def fractionValue : List (Fin 10) → ℚ
  | [] => 0
  | d :: ds => (d.val + fractionValue ds) / 10

inductive Sign where
  | absent
  | plus
  | minus
deriving DecidableEq

namespace Sign

def text : Sign → List Char
  | absent => []
  | plus => ['+']
  | minus => ['-']

def factor : Sign → ℤ
  | minus => -1
  | _ => 1

end Sign

structure Exponent where
  capital : Bool
  sign : Sign
  digits : List (Fin 10)
  ne_nil : digits ≠ []

namespace Exponent

def mark (e : Exponent) : Char :=
  if e.capital then 'E' else 'e'

def number (e : Exponent) : List Char :=
  e.sign.text ++ run e.digits

def text (e : Exponent) : List Char :=
  e.mark :: e.number

def value (e : Exponent) : ℤ :=
  e.sign.factor * wholeValue e.digits

end Exponent

/-- The parts of a decimal. A point without digits after it leaves an empty fraction. -/
structure Spelling where
  sign : Sign
  whole : List (Fin 10)
  fraction? : Option (List (Fin 10))
  exponent? : Option Exponent

namespace Spelling

def fraction (s : Spelling) : List (Fin 10) :=
  s.fraction?.getD []

def power (s : Spelling) : ℤ :=
  s.exponent?.elim 0 Exponent.value

def point (s : Spelling) : List Char :=
  s.fraction?.elim [] fun ds => '.' :: run ds

def scale (s : Spelling) : List Char :=
  s.exponent?.elim [] Exponent.text

def body (s : Spelling) : List Char :=
  run s.whole ++ (s.point ++ s.scale)

def text (s : Spelling) : String :=
  String.ofList (s.sign.text ++ s.body)

def value (s : Spelling) : ℚ :=
  s.sign.factor * (wholeValue s.whole + fractionValue s.fraction) * 10 ^ s.power

def Readable (s : Spelling) : Prop :=
  s.whole ≠ [] ∨ s.fraction ≠ []

end Spelling

variable {s t : Spelling} {c : Char} {cs : List Char} {ds es : List (Fin 10)}

/-! ### Digits -/

lemma isDecimalDigit_digitChar : ∀ d : Fin 10, isDecimalDigit (digitChar d) = true := by decide

lemma digitValue_digitChar : ∀ d : Fin 10, digitValue (digitChar d) = d.val := by decide

lemma digitChar_injective : Function.Injective digitChar := by
  intro d e h
  apply Fin.ext
  rw [← digitValue_digitChar, h, digitValue_digitChar]

lemma isDecimalDigit_of_mem_run (h : c ∈ run ds) : isDecimalDigit c = true := by
  obtain ⟨d, -, rfl⟩ := List.mem_map.mp h
  exact isDecimalDigit_digitChar d

lemma exists_digitChar (h : isDecimalDigit c = true) : ∃ d, digitChar d = c := by
  have hc : 48 ≤ c.toNat ∧ c.toNat ≤ 57 := by
    simpa [isDecimalDigit, Char.le_def, UInt32.le_iff_toNat_le] using h
  refine ⟨⟨c.toNat - 48, by omega⟩, ?_⟩
  rw [digitChar, Nat.add_sub_cancel' hc.1, Char.ofNat_toNat]

lemma exists_run (h : ∀ c ∈ cs, isDecimalDigit c = true) : ∃ ds, run ds = cs := by
  induction cs with
  | nil => exact ⟨[], rfl⟩
  | cons c cs ih =>
    obtain ⟨d, rfl⟩ := exists_digitChar (h c List.mem_cons_self)
    obtain ⟨ds, rfl⟩ := ih fun c hc => h c (List.mem_cons_of_mem _ hc)
    exact ⟨d :: ds, rfl⟩

lemma exists_takeWhile (cs : List Char) : ∃ ds, run ds = cs.takeWhile isDecimalDigit :=
  exists_run fun _ hc => List.mem_takeWhile_imp hc

@[simp] lemma run_eq_nil : run ds = [] ↔ ds = [] :=
  List.map_eq_nil_iff

lemma run_injective : Function.Injective run :=
  List.map_injective_iff.mpr digitChar_injective

@[simp] lemma length_run : (run ds).length = ds.length :=
  List.length_map _

lemma run_append : run ds ++ run es = run (ds ++ es) :=
  List.map_append.symm

lemma takeWhile_run (h : ∀ c ∈ cs.head?, isDecimalDigit c = false) :
    (run ds ++ cs).takeWhile isDecimalDigit = run ds := by
  rw [List.takeWhile_append_of_pos fun c hc => isDecimalDigit_of_mem_run hc]
  cases cs with
  | nil => simp
  | cons c cs => simp [h c rfl]

lemma dropWhile_run (h : ∀ c ∈ cs.head?, isDecimalDigit c = false) :
    (run ds ++ cs).dropWhile isDecimalDigit = cs := by
  rw [List.dropWhile_append_of_pos fun c hc => isDecimalDigit_of_mem_run hc]
  cases cs with
  | nil => rfl
  | cons c cs => simp [h c rfl]

lemma run_append_inj {cs' : List Char} (h : ∀ c ∈ cs.head?, isDecimalDigit c = false)
    (h' : ∀ c ∈ cs'.head?, isDecimalDigit c = false) (he : run ds ++ cs = run es ++ cs') :
    ds = es ∧ cs = cs' := by
  constructor
  · apply run_injective
    rw [← takeWhile_run h, he, takeWhile_run h']
  · rw [← dropWhile_run h, he, dropWhile_run h']

/-! ### Values of digits -/

lemma decimalValue_run : decimalValue (run ds) = wholeValue ds := by
  -- the loop starts from a number, which the digits still to come move to the left
  have hf : ∀ n, (run ds).foldl (fun n c => 10 * n + digitValue c) n =
      n * 10 ^ ds.length + wholeValue ds := by
    induction ds with
    | nil => simp [run, wholeValue]
    | cons d ds ih =>
      intro n
      have hd := digitValue_digitChar d
      simp only [run, List.map_cons, List.foldl_cons, hd] at ih ⊢
      rw [ih, wholeValue, List.length_cons, pow_succ]
      ring
  simpa [decimalValue] using hf 0

lemma wholeValue_append :
    wholeValue (ds ++ es) = wholeValue ds * 10 ^ es.length + wholeValue es := by
  induction ds with
  | nil => simp [wholeValue]
  | cons d ds ih =>
    rw [List.cons_append, wholeValue, ih, wholeValue, List.length_append, pow_add]
    ring

lemma fractionValue_eq : fractionValue ds = wholeValue ds / 10 ^ ds.length := by
  induction ds with
  | nil => simp [fractionValue, wholeValue]
  | cons d ds ih =>
    rw [fractionValue, ih, wholeValue, List.length_cons]
    push_cast
    field_simp
    ring

/-! ### Signs -/

lemma cutSign_of_head (h : ∀ c ∈ cs.head?, c ≠ '-' ∧ c ≠ '+') : cutSign cs = (false, cs) := by
  cases cs with
  | nil => rfl
  | cons c cs =>
    obtain ⟨hm, hp⟩ := h c rfl
    unfold cutSign
    split <;> simp_all

lemma cutSign_text (sign : Sign) (h : ∀ c ∈ cs.head?, c ≠ '-' ∧ c ≠ '+') :
    cutSign (sign.text ++ cs) = (decide (sign = .minus), cs) := by
  cases sign with
  | absent => exact cutSign_of_head h
  | plus => rfl
  | minus => rfl

lemma exists_sign (cs : List Char) : ∃ sign : Sign, cs = sign.text ++ (cutSign cs).2 ∧
    (cutSign cs).1 = decide (sign = .minus) := by
  unfold cutSign
  split
  · exact ⟨.minus, rfl, rfl⟩
  · exact ⟨.plus, rfl, rfl⟩
  · exact ⟨.absent, rfl, rfl⟩

lemma sign_append_inj {a b : Sign} {cs' : List Char} (h : ∀ c ∈ cs.head?, c ≠ '-' ∧ c ≠ '+')
    (h' : ∀ c ∈ cs'.head?, c ≠ '-' ∧ c ≠ '+') (he : a.text ++ cs = b.text ++ cs') :
    a = b ∧ cs = cs' := by
  cases a <;> cases b <;> grind [Sign.text]

lemma digit_ne_sign (h : isDecimalDigit c = true) : c ≠ '-' ∧ c ≠ '+' := by
  constructor <;> rintro rfl <;> exact absurd h (by decide)

lemma head?_run_ne_sign : ∀ c ∈ (run ds).head?, c ≠ '-' ∧ c ≠ '+' :=
  fun _ hc => digit_ne_sign (isDecimalDigit_of_mem_run (List.mem_of_mem_head? hc))

/-! ### Whole numbers and exponents -/

lemma readInteger?_text (sign : Sign) (h : ds ≠ []) :
    readInteger? (String.ofList (sign.text ++ run ds)) = some (sign.factor * wholeValue ds) := by
  have ha : (run ds).all isDecimalDigit = true :=
    List.all_eq_true.mpr fun c hc => isDecimalDigit_of_mem_run hc
  simp only [readInteger?, String.toList_ofList, cutSign_text sign head?_run_ne_sign]
  rw [if_pos ⟨mt run_eq_nil.mp h, ha⟩, decimalValue_run]
  cases sign <;> simp [Sign.factor]

lemma exists_of_readInteger? {v : String} {n : ℤ} (h : readInteger? v = some n) :
    ∃ (sign : Sign) (ds : List (Fin 10)), ds ≠ [] ∧ v.toList = sign.text ++ run ds := by
  obtain ⟨sign, hv, -⟩ := exists_sign v.toList
  simp only [readInteger?] at h
  split at h
  next hd =>
    obtain ⟨ds, hr⟩ := exists_run (List.all_eq_true.mp hd.2)
    refine ⟨sign, ds, ?_, ?_⟩
    · rintro rfl
      exact hd.1 hr.symm
    · rw [hr]
      exact hv
  · cases h

lemma readExponent?_text (e : Exponent) : readExponent? e.text = some e.value := by
  have hm : e.mark = 'e' ∨ e.mark = 'E' := by
    unfold Exponent.mark
    split
    · exact Or.inr rfl
    · exact Or.inl rfl
  rw [Exponent.text, readExponent?, if_pos hm]
  exact readInteger?_text e.sign e.ne_nil

lemma exists_of_readExponent? {n : ℤ} (h : readExponent? cs = some n) :
    cs = [] ∨ ∃ e : Exponent, cs = e.text := by
  cases cs with
  | nil => exact Or.inl rfl
  | cons c cs =>
    right
    rw [readExponent?] at h
    split at h
    next hc =>
      obtain ⟨sign, ds, hd, hv⟩ := exists_of_readInteger? h
      rw [String.toList_ofList] at hv
      refine ⟨⟨decide (c = 'E'), sign, ds, hd⟩, ?_⟩
      rw [Exponent.text, Exponent.number, hv]
      rcases hc with rfl | rfl <;> rfl
    · cases h

lemma Exponent.mark_ne (e : Exponent) : isDecimalDigit e.mark = false ∧ e.mark ≠ '.' ∧
    e.mark ≠ '-' ∧ e.mark ≠ '+' := by
  unfold Exponent.mark
  split <;> decide

lemma Exponent.text_injective {a b : Exponent} (h : a.text = b.text) : a = b := by
  obtain ⟨hm, hn⟩ := List.cons.inj h
  obtain ⟨hs, hd⟩ := sign_append_inj head?_run_ne_sign head?_run_ne_sign hn
  have hc : a.capital = b.capital := by
    cases ha : a.capital <;> cases hb : b.capital <;> simp_all [Exponent.mark]
  cases a
  cases b
  cases hc
  cases hs
  cases run_injective hd
  rfl

/-! ### Spellings -/

lemma Spelling.head?_scale (s : Spelling) : ∀ c ∈ s.scale.head?,
    isDecimalDigit c = false ∧ c ≠ '.' ∧ c ≠ '-' ∧ c ≠ '+' := by
  unfold Spelling.scale
  cases s.exponent? with
  | none => simp
  | some e =>
    rintro c ⟨rfl⟩
    exact e.mark_ne

lemma Spelling.head?_point_scale (s : Spelling) : ∀ c ∈ (s.point ++ s.scale).head?,
    isDecimalDigit c = false ∧ c ≠ '-' ∧ c ≠ '+' := by
  unfold Spelling.point
  cases s.fraction? with
  | none =>
    intro c hc
    obtain ⟨hd, -, hn⟩ := s.head?_scale c hc
    exact ⟨hd, hn⟩
  | some ds =>
    rintro c ⟨rfl⟩
    decide

lemma Spelling.head?_body (s : Spelling) : ∀ c ∈ s.body.head?, c ≠ '-' ∧ c ≠ '+' := by
  unfold Spelling.body
  by_cases hw : run s.whole = []
  · rw [hw]
    exact fun c hc => (s.head?_point_scale c hc).2
  · rw [List.head?_append_of_ne_nil _ hw]
    exact head?_run_ne_sign

lemma Spelling.point_scale_inj (h : s.point ++ s.scale = t.point ++ t.scale) :
    s.fraction? = t.fraction? ∧ s.scale = t.scale := by
  have hs : ∀ s : Spelling, ∀ c ∈ s.scale.head?, isDecimalDigit c = false :=
    fun s c hc => (s.head?_scale c hc).1
  have hp : ∀ (s : Spelling) (cs : List Char), s.scale ≠ '.' :: cs :=
    fun s cs he => (s.head?_scale '.' (by rw [he]; rfl)).2.1 rfl
  unfold Spelling.point at h
  cases hf : s.fraction? with
  | none =>
    cases hg : t.fraction? with
    | none =>
      rw [hf, hg] at h
      exact ⟨rfl, h⟩
    | some es =>
      rw [hf, hg] at h
      exact absurd h (hp s _)
  | some ds =>
    cases hg : t.fraction? with
    | none =>
      rw [hf, hg] at h
      exact absurd h.symm (hp t _)
    | some es =>
      rw [hf, hg] at h
      obtain ⟨rfl, he⟩ := run_append_inj (hs s) (hs t) (List.cons.inj h).2
      exact ⟨rfl, he⟩

lemma Spelling.text_injective (h : s.text = t.text) : s = t := by
  have hd : ∀ s : Spelling, ∀ c ∈ (s.point ++ s.scale).head?, isDecimalDigit c = false :=
    fun s c hc => (s.head?_point_scale c hc).1
  obtain ⟨hsign, hb⟩ := sign_append_inj s.head?_body t.head?_body (String.ofList_injective h)
  obtain ⟨hw, hr⟩ := run_append_inj (hd s) (hd t) hb
  obtain ⟨hf, he⟩ := Spelling.point_scale_inj hr
  have hx : s.exponent? = t.exponent? := by
    unfold Spelling.scale at he
    cases hs : s.exponent? with
    | none =>
      cases ht : t.exponent? with
      | none => rfl
      | some e =>
        rw [hs, ht] at he
        cases he
    | some e =>
      cases ht : t.exponent? with
      | none =>
        rw [hs, ht] at he
        cases he
      | some e' =>
        rw [hs, ht] at he
        rw [Exponent.text_injective he]
  cases s
  cases t
  cases hsign
  cases hw
  cases hf
  cases hx
  rfl

/-! ### Reading -/

def Spelling.decimal (s : Spelling) : Decimal where
  negative := decide (s.sign = .minus)
  mantissa := wholeValue (s.whole ++ s.fraction)
  exponent := s.power - s.fraction.length

lemma Spelling.readExponent?_scale (s : Spelling) : readExponent? s.scale = some s.power := by
  unfold Spelling.scale Spelling.power
  cases s.exponent? with
  | none => rfl
  | some e => exact readExponent?_text e

def cutPoint (cs : List Char) : List Char × List Char :=
  match cs with
  | '.' :: ds => (ds.takeWhile isDecimalDigit, ds.dropWhile isDecimalDigit)
  | _ => ([], cs)

lemma readDecimal?_eq (v : String) : readDecimal? v =
    let cs := (cutSign v.toList).2
    let whole := cs.takeWhile isDecimalDigit
    let (fraction, tail) := cutPoint (cs.dropWhile isDecimalDigit)
    if whole = [] ∧ fraction = [] then none
    else (readExponent? tail).map fun e =>
      { negative := (cutSign v.toList).1, mantissa := decimalValue (whole ++ fraction),
        exponent := e - fraction.length } :=
  rfl

lemma cutPoint_of_head (h : ∀ c ∈ cs.head?, c ≠ '.') : cutPoint cs = ([], cs) := by
  unfold cutPoint
  split
  · exact absurd rfl (h '.' rfl)
  · rfl

lemma Spelling.cutPoint_point (s : Spelling) :
    cutPoint (s.point ++ s.scale) = (run s.fraction, s.scale) := by
  unfold Spelling.point Spelling.fraction
  cases s.fraction? with
  | none => exact cutPoint_of_head fun c hc => (s.head?_scale c hc).2.1
  | some ds =>
    have hh : ∀ c ∈ s.scale.head?, isDecimalDigit c = false := fun c hc => (s.head?_scale c hc).1
    exact Prod.ext (takeWhile_run hh) (dropWhile_run hh)

theorem readDecimal?_text (h : s.Readable) : readDecimal? s.text = some s.decimal := by
  have hd : ∀ c ∈ (s.point ++ s.scale).head?, isDecimalDigit c = false :=
    fun c hc => (s.head?_point_scale c hc).1
  have hn : ¬(run s.whole = [] ∧ run s.fraction = []) := by
    rintro ⟨hw, hf⟩
    exact h.elim (fun h => h (run_eq_nil.mp hw)) (fun h => h (run_eq_nil.mp hf))
  have hc : cutSign s.text.toList = (decide (s.sign = .minus), s.body) := by
    rw [Spelling.text, String.toList_ofList, cutSign_text s.sign s.head?_body]
  simp only [readDecimal?_eq, hc, Spelling.body, takeWhile_run hd, dropWhile_run hd,
    s.cutPoint_point]
  rw [if_neg hn, s.readExponent?_scale, run_append, decimalValue_run, length_run]
  rfl

lemma exists_cutPoint (cs : List Char) : ∃ f : Option (List (Fin 10)),
    cs = f.elim [] (fun ds => '.' :: run ds) ++ (cutPoint cs).2 ∧
      (cutPoint cs).1 = run (f.getD []) := by
  unfold cutPoint
  split
  next ds =>
    obtain ⟨es, he⟩ := exists_takeWhile ds
    refine ⟨some es, ?_, he.symm⟩
    change '.' :: ds = '.' :: (run es ++ ds.dropWhile isDecimalDigit)
    rw [he, List.takeWhile_append_dropWhile]
  · exact ⟨none, rfl, rfl⟩

theorem exists_spelling {v : String} {d : Decimal} (h : readDecimal? v = some d) :
    ∃ s : Spelling, s.Readable ∧ v = s.text := by
  obtain ⟨sign, hv, -⟩ := exists_sign v.toList
  set cs := (cutSign v.toList).2 with hcs
  obtain ⟨ws, hw⟩ := exists_takeWhile cs
  obtain ⟨f, hp, hf⟩ := exists_cutPoint (cs.dropWhile isDecimalDigit)
  rw [readDecimal?_eq] at h
  simp only [← hcs, ← hw, hf] at h
  split at h
  · cases h
  next hn =>
    obtain ⟨e, he, -⟩ := Option.map_eq_some_iff.mp h
    have hr : ws ≠ [] ∨ f.getD [] ≠ [] := by
      simpa [not_and_or, imp_iff_not_or] using hn
    have hx : ∃ x : Option Exponent,
        (cutPoint (cs.dropWhile isDecimalDigit)).2 = x.elim [] Exponent.text := by
      rcases exists_of_readExponent? he with hx | ⟨x, hx⟩
      · exact ⟨none, hx⟩
      · exact ⟨some x, hx⟩
    obtain ⟨x, hx⟩ := hx
    refine ⟨⟨sign, ws, f, x⟩, hr, ?_⟩
    rw [← String.toList_inj, Spelling.text, String.toList_ofList, hv]
    congr 1
    change cs = run ws ++ (f.elim [] (fun ds => '.' :: run ds) ++ x.elim [] Exponent.text)
    rw [← hx, ← hp, hw, List.takeWhile_append_dropWhile]

/-! ### Magnitudes -/

def magnitude (d : Decimal) : ℚ :=
  d.mantissa * 10 ^ d.exponent

lemma Spelling.magnitude_decimal (s : Spelling) : magnitude s.decimal = |s.value| := by
  have hf : |(s.sign.factor : ℚ)| = 1 := by
    cases s.sign <;> simp [Sign.factor]
  have hp : (0 : ℚ) ≤ wholeValue s.whole + fractionValue s.fraction := by
    rw [fractionValue_eq]
    positivity
  have ht : (0 : ℚ) ≤ 10 ^ s.power := by positivity
  rw [Spelling.value, abs_mul, abs_mul, hf, one_mul, abs_of_nonneg hp, abs_of_nonneg ht,
    fractionValue_eq, magnitude]
  change ((wholeValue (s.whole ++ s.fraction) : ℕ) : ℚ) *
    10 ^ (s.power - (s.fraction.length : ℤ)) = _
  rw [wholeValue_append, zpow_sub₀ (by norm_num), zpow_natCast]
  push_cast
  field_simp

lemma singleBound_eq : (singleBound : ℚ) = 2 ^ 128 - 2 ^ 103 := by
  have hs : singleBound = 2 ^ 128 - 2 ^ 103 := rfl
  rw [hs]
  norm_num

lemma magnitude_lt (d : Decimal) :
    magnitude d < 10 ^ ((digitCount d.mantissa : ℤ) + d.exponent) := by
  have hm : (d.mantissa : ℚ) < 10 ^ digitCount d.mantissa := by
    exact_mod_cast lt_pow_digitCount d.mantissa
  rw [zpow_add₀ (by norm_num), zpow_natCast, magnitude]
  have ht : (0 : ℚ) < 10 ^ d.exponent := by positivity
  exact mul_lt_mul_of_pos_right hm ht

lemma le_magnitude {d : Decimal} (h : d.mantissa ≠ 0) :
    10 ^ ((digitCount d.mantissa : ℤ) + d.exponent - 1) ≤ magnitude d := by
  have hm : (10 : ℚ) ^ digitCount d.mantissa ≤ 10 * d.mantissa := by
    exact_mod_cast pow_digitCount_le h
  have ht : (0 : ℚ) ≤ 10 ^ d.exponent := by positivity
  rw [zpow_sub₀ (by norm_num), zpow_add₀ (by norm_num), zpow_natCast, magnitude, zpow_one,
    div_le_iff₀ (by norm_num)]
  calc (10 : ℚ) ^ digitCount d.mantissa * 10 ^ d.exponent
      ≤ 10 * d.mantissa * 10 ^ d.exponent := mul_le_mul_of_nonneg_right hm ht
    _ = d.mantissa * 10 ^ d.exponent * 10 := by ring

lemma magnitude_lt_iff (d : Decimal) (n : ℕ) : magnitude d < n ↔
    d.mantissa * 10 ^ d.exponent.toNat < n * 10 ^ (-d.exponent).toNat := by
  have hz : (10 : ℚ) ^ d.exponent = 10 ^ d.exponent.toNat / 10 ^ (-d.exponent).toNat := by
    rw [← zpow_natCast, ← zpow_natCast, ← zpow_sub₀ (by norm_num)]
    congr 1
    omega
  rw [magnitude, hz, ← mul_div_assoc, div_lt_iff₀ (by positivity)]
  exact_mod_cast Iff.rfl

theorem fitsSingle_iff (d : Decimal) : d.fitsSingle = true ↔ magnitude d < 2 ^ 128 - 2 ^ 103 := by
  rw [← singleBound_eq]
  simp only [Decimal.fitsSingle]
  -- counting digits settles what is far from the bound, and only the rest is multiplied out
  split
  next h =>
    refine iff_of_true rfl ?_
    rcases h with h | h
    · rw [magnitude, h, singleBound_eq]
      norm_num
    · calc magnitude d < 10 ^ ((digitCount d.mantissa : ℤ) + d.exponent) := magnitude_lt d
        _ ≤ 10 ^ (38 : ℤ) := zpow_le_zpow_right₀ (by norm_num) h
        _ ≤ singleBound := by
          rw [singleBound_eq]
          norm_num
  next h =>
    obtain ⟨hm, -⟩ := not_or.mp h
    split
    next h =>
      refine iff_of_false (by decide) (not_lt.mpr ?_)
      calc (singleBound : ℚ) ≤ 10 ^ (39 : ℤ) := by
            rw [singleBound_eq]
            norm_num
        _ ≤ 10 ^ ((digitCount d.mantissa : ℤ) + d.exponent - 1) :=
          zpow_le_zpow_right₀ (by norm_num) (by omega)
        _ ≤ magnitude d := le_magnitude hm
    next =>
      rw [decide_eq_true_iff, magnitude_lt_iff]
      exact Iff.rfl

end TuiMarkup.Proofs.Decimals
