import TuiMarkup.Proofs.Rendering

/-! Characters are read from their spellings: the number of a reference has one value whatever zeros
stand in front, and a quoted value ends at its quote. -/

namespace TuiMarkup.Proofs.Spelling

open Markup Rendering

/-! ### Numbers -/

lemma foldl_toDigits {b : ℕ} (v : Char → ℕ) (hb : 1 < b)
    (hv : ∀ k < b, v (Nat.digitChar k) = k) (n : ℕ) :
    (Nat.toDigits b n).foldl (fun m c => b * m + v c) 0 = n := by
  induction n using Nat.strongRecOn with
  | ind n ih =>
    rw [Nat.toDigits_eq_if hb]
    split
    · next hn => simp [hv n hn]
    · next hn =>
      have hd : n / b < n := Nat.div_lt_self (by omega) hb
      have hm : n % b < b := Nat.mod_lt _ (by omega)
      rw [List.foldl_append, ih _ hd]
      simp only [List.foldl_cons, List.foldl_nil, hv _ hm]
      exact Nat.div_add_mod n b

lemma foldl_paddedDigits {b : ℕ} (v : Char → ℕ) (hb : 1 < b)
    (hv : ∀ k < b, v (Nat.digitChar k) = k) (zeros n : ℕ) :
    (List.replicate zeros '0' ++ Nat.toDigits b n).foldl (fun m c => b * m + v c) 0 = n := by
  have hz : (List.replicate zeros '0').foldl (fun m c => b * m + v c) 0 = 0 := by
    have h0 : v '0' = 0 := hv 0 (by omega)
    induction zeros with
    | zero => rfl
    | succ z ih => simpa [List.replicate_succ, h0] using ih
  rw [List.foldl_append, hz, foldl_toDigits v hb hv]

lemma decimalValue_padded (zeros n : ℕ) :
    Text.decimalValue (List.replicate zeros '0' ++ Nat.toDigits 10 n) = n :=
  foldl_paddedDigits Text.digitValue (by decide) (by decide) zeros n

lemma decimalValue_toString (n : ℕ) : Text.decimalValue (toString n).toList = n := by
  rw [Nat.toString_eq_repr, Nat.toList_repr]
  exact decimalValue_padded 0 n

lemma hexValue_digitChar : ∀ k < 16, hexValue (Nat.digitChar k) = k ∧
    hexValue (Nat.digitChar k).toUpper = k := by
  decide

lemma hexadecimalValue_padded {zeros n : ℕ} {digits : List Char}
    (h : List.Forall₂ (fun d e => d = e ∨ d = e.toUpper) digits
      (List.replicate zeros '0' ++ Nat.toDigits 16 n)) : hexadecimalValue digits = n := by
  -- The value does not see the case of the letters.
  have hc : ∀ ds es m, (∀ e ∈ es, ∃ k < 16, e = Nat.digitChar k) →
      List.Forall₂ (fun d e => d = e ∨ d = e.toUpper) ds es →
      ds.foldl (fun n c => 16 * n + hexValue c) m =
        es.foldl (fun n c => 16 * n + hexValue c) m := by
    intro ds es m he hf
    induction hf generalizing m with
    | nil => rfl
    | @cons d e _ _ hd _ ih =>
      obtain ⟨k, hk, rfl⟩ := he e (by simp)
      have hv : hexValue d = hexValue (Nat.digitChar k) := by
        rcases hd with rfl | rfl
        · rfl
        · rw [(hexValue_digitChar k hk).1, (hexValue_digitChar k hk).2]
      rw [List.foldl_cons, List.foldl_cons, hv, ih _ (fun f hf => he f (by simp [hf]))]
  rw [hexadecimalValue, hc _ _ _ (fun e he => mem_paddedDigits (by omega) he) h]
  exact foldl_paddedDigits hexValue (by decide) (fun k hk => (hexValue_digitChar k hk).1) zeros n

/-! ### References -/

lemma charOfNumber_toNat (c : Char) : charOfNumber? c.toNat = some c := by
  have hv : c.toNat.isValidChar := c.valid
  rw [charOfNumber?, if_pos hv, Char.ofNat_toNat]

lemma takeWhile_append_stop {p : Char → Bool} {xs : List Char} {c : Char}
    (hx : ∀ x ∈ xs, p x = true) (hc : p c = false) (ys : List Char) :
    (xs ++ c :: ys).takeWhile p = xs ∧ (xs ++ c :: ys).dropWhile p = c :: ys := by
  rw [List.takeWhile_append_of_pos hx, List.dropWhile_append_of_pos hx]
  simp [hc]

lemma numericReference_eq {mark digits rest : List Char} {isDigit : Char → Bool}
    {number : List Char → ℕ} {c : Char} (hn : digits ≠ []) (hd : ∀ d ∈ digits, isDigit d = true)
    (hs : isDigit ';' = false) (hv : number digits = c.toNat) :
    numericReference mark isDigit number (digits ++ ';' :: rest) =
      .ok ⟨c, mark ++ digits ++ [';'], rest⟩ := by
  obtain ⟨ht, hr⟩ := takeWhile_append_stop hd hs rest
  simp only [numericReference, ht, hr, if_neg hn, hv, charOfNumber_toNat, closeReference]

lemma reference_decimal (c : Char) (zeros : ℕ) (rest : List Char) :
    reference ('#' :: (List.replicate zeros '0' ++ Nat.toDigits 10 c.toNat ++ ';' :: rest)) =
      .ok ⟨c, '&' :: '#' :: (List.replicate zeros '0' ++ Nat.toDigits 10 c.toNat ++ [';']),
        rest⟩ := by
  have hd : ∀ d ∈ List.replicate zeros '0' ++ Nat.toDigits 10 c.toNat,
      Text.isDecimalDigit d = true := fun d hd => isDecimalDigit_of_mem hd
  have hn : List.replicate zeros '0' ++ Nat.toDigits 10 c.toNat ≠ [] := by
    simp [Nat.toDigits_ne_nil]
  rw [reference]
  · exact numericReference_eq hn hd (by decide) (decimalValue_padded zeros _)
  · intro cs hx
    cases hl : List.replicate zeros '0' ++ Nat.toDigits 10 c.toNat with
    | nil => exact hn hl
    | cons e es =>
      rw [hl] at hd hx
      cases hx
      exact absurd (hd 'x' (by simp)) (by decide)

lemma reference_hexadecimal {c : Char} {zeros : ℕ} {digits : List Char}
    (h : List.Forall₂ (fun d e => d = e ∨ d = e.toUpper) digits
      (List.replicate zeros '0' ++ Nat.toDigits 16 c.toNat)) (rest : List Char) :
    reference ('#' :: 'x' :: (digits ++ ';' :: rest)) =
      .ok ⟨c, '&' :: '#' :: 'x' :: (digits ++ [';']), rest⟩ := by
  have hn : digits ≠ [] := by
    rintro rfl
    have hl := h.length_eq
    have hp := @Nat.length_toDigits_pos 16 c.toNat
    simp only [List.length_nil, List.length_append] at hl
    omega
  rw [reference]
  exact numericReference_eq hn (fun d hd => isHexDigit_of_mem h hd) (by decide)
    (hexadecimalValue_padded h)

lemma reference_entity {c : Char} {name : String} (h : (name, c) ∈ entities) (rest : List Char) :
    reference (name.toList ++ ';' :: rest) = .ok ⟨c, '&' :: (name.toList ++ [';']), rest⟩ := by
  have hn : ∀ d ∈ name.toList, isNamePart d = true := by
    rw [← List.all_eq_true]
    simp only [entities, List.mem_cons, Prod.mk.injEq, List.not_mem_nil, or_false] at h
    rcases h with ⟨rfl, _⟩ | ⟨rfl, _⟩ | ⟨rfl, _⟩ | ⟨rfl, _⟩ | ⟨rfl, _⟩ <;> decide
  have he : namedEntity? name.toList = some c := by
    simp only [entities, List.mem_cons, Prod.mk.injEq, List.not_mem_nil, or_false] at h
    rcases h with ⟨rfl, rfl⟩ | ⟨rfl, rfl⟩ | ⟨rfl, rfl⟩ | ⟨rfl, rfl⟩ | ⟨rfl, rfl⟩ <;> rfl
  obtain ⟨ht, hr⟩ := takeWhile_append_stop hn (c := ';') (by decide) rest
  have hh : ∀ cs, name.toList ++ ';' :: rest = '#' :: cs → False := by
    intro cs hc
    cases hl : name.toList with
    | nil => simp [hl] at hc
    | cons d ds =>
      rw [hl] at hn hc
      cases hc
      exact absurd (hn '#' (by simp)) (by decide)
  rw [reference]
  · simp only [ht, hr, he, closeReference, List.cons_append]
  · exact fun cs hc => hh _ hc
  · exact hh

lemma Spells.raw_or_reference {quote c : Char} {part : List Char} (h : Spells quote c part) :
    (part = [c] ∧ c ∉ ['<', '&', quote, '\t', '\n', '\r']) ∨
      ∃ tail, part = '&' :: tail ∧ ∀ rest, reference (tail ++ rest) = .ok ⟨c, part, rest⟩ := by
  cases h with
  | raw hc => exact Or.inl ⟨rfl, hc⟩
  | entity he =>
    exact Or.inr ⟨_, rfl, fun rest => by simpa using reference_entity he rest⟩
  | decimal zeros =>
    exact Or.inr ⟨_, rfl, fun rest => by simpa using reference_decimal c zeros rest⟩
  | hexadecimal hd =>
    exact Or.inr ⟨_, rfl, fun rest => by simpa using reference_hexadecimal hd rest⟩

/-! ### Runs of characters -/

lemma run_spelling {quote c : Char} {part : List Char} (hq : isQuote quote = true)
    (h : Spells quote c part) (rest : List Char) :
    run (fun d => d == quote || d == '<') spellInValue (part ++ rest) =
      (run (fun d => d == quote || d == '<') spellInValue rest).cons c part := by
  rcases Spells.raw_or_reference h with ⟨rfl, hc⟩ | ⟨tail, rfl, hr⟩
  · simp only [List.mem_cons, List.not_mem_nil, or_false, not_or] at hc
    obtain ⟨hl, ha, hq, ht, hn, hr⟩ := hc
    have hs : spellInValue c = c := by simp [spellInValue, ht, hn, hr]
    rw [List.singleton_append, run, if_neg (by simp [hq, hl]), if_neg ha, hs]
  · have hne : '&' ≠ quote := (ne_of_class hq (by decide)).symm
    rw [List.cons_append, run, if_neg (by simp [hne]), if_pos rfl]
    split
    · next r h =>
      rw [hr] at h
      cases h
      rfl
    · next f h =>
      rw [hr] at h
      cases h

lemma run_value {quote : Char} {value : List Char} {parts : List (List Char)}
    (hq : isQuote quote = true) (h : List.Forall₂ (Spells quote) value parts) (rest : List Char) :
    run (fun d => d == quote || d == '<') spellInValue (parts.flatten ++ quote :: rest) =
      { value, text := parts.flatten, rest := quote :: rest } := by
  induction h with
  | nil => rw [List.flatten_nil, List.nil_append, run, if_pos (by simp)]
  | cons hc _ ih =>
    rw [List.flatten_cons, List.append_assoc, run_spelling hq hc, ih]
    rfl

lemma run_plain {cs : List Char} (h : IsPlain cs) {rest : List Char}
    (hr : rest = [] ∨ ∃ tail, rest = '<' :: tail) :
    run (· == '<') id (cs ++ rest) = { value := cs, text := cs, rest } := by
  induction cs with
  | nil =>
    rcases hr with rfl | ⟨tail, rfl⟩
    · rw [List.nil_append, run]
    · rw [List.nil_append, run, if_pos (by simp)]
  | cons c cs ih =>
    obtain ⟨hl, ha⟩ := h c (by simp)
    have hh := ih (fun d hd => h d (by simp [hd]))
    rw [List.cons_append, run, if_neg (by simp [hl]), if_neg ha, hh]
    rfl

end TuiMarkup.Proofs.Spelling
