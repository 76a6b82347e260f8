import Mathlib.Data.List.Forall2
import Mathlib.Data.List.TakeWhile
import Mathlib.Tactic.Lemma
import TuiMarkup.Json.Reader
import TuiMarkup.Json.Writer
import TuiMarkup.Proofs.Spelling

/-! Values of JSON are read back from the texts in which they are written. -/

namespace TuiMarkup.Proofs.JsonText

open Json

variable {c : Char} {cs : List Char} {s : String}

/-! ### Strings -/

lemma unit?_hexDigit : ∀ n < 32, unit? '0' '0' (hexDigit (n / 16)) (hexDigit (n % 16)) = some n := by
  decide

lemma stringUnits_escape (c : Char) (cs : List Char) :
    stringUnits (escape c ++ cs) = (stringUnits cs).map fun p => (c.toNat :: p.1, p.2) := by
  have hs : ∀ d n, d ≠ 'u' → simpleEscape? d = some n →
      stringUnits (['\\', d] ++ cs) = (stringUnits cs).map fun p => (n :: p.1, p.2) := by
    intro d n hd hn
    rw [List.cons_append, List.singleton_append, stringUnits, hn]
    · cases stringUnits cs <;> rfl
    · rintro _ _ _ _ _ rfl
      exact absurd rfl hd
  unfold escape
  split_ifs with h₁ h₂ h₃ h₄ h₅ h₆ h₇ h₈
  · subst h₁
    exact hs '"' _ (by decide) rfl
  · subst h₂
    exact hs '\\' _ (by decide) rfl
  · subst h₃
    exact hs 'n' _ (by decide) rfl
  · subst h₄
    exact hs 'r' _ (by decide) rfl
  · subst h₅
    exact hs 't' _ (by decide) rfl
  · subst h₆
    exact hs 'b' _ (by decide) rfl
  · subst h₇
    exact hs 'f' _ (by decide) rfl
  · simp only [List.cons_append, List.nil_append]
    rw [stringUnits, unit?_hexDigit _ h₈]
    cases stringUnits cs <;> rfl
  · rw [List.singleton_append, stringUnits]
    · rw [if_neg (by simp [h₂, h₈])]
      cases stringUnits cs <;> rfl
    · exact h₁
    all_goals
      intros
      exact h₂ ‹_›

lemma stringUnits_flatMap (cs rest : List Char) :
    stringUnits (cs.flatMap escape ++ '"' :: rest) = some (cs.map Char.toNat, rest) := by
  induction cs with
  | nil => rw [List.flatMap_nil, List.nil_append, stringUnits, List.map_nil]
  | cons c cs ih =>
    rw [List.flatMap_cons, List.append_assoc, stringUnits_escape, ih]
    rfl

lemma not_surrogate (c : Char) : isHighSurrogate c.toNat = false ∧ isLowSurrogate c.toNat = false := by
  have hv : c.toNat.isValidChar := c.valid
  simp only [isHighSurrogate, isLowSurrogate, Bool.and_eq_false_iff, decide_eq_false_iff_not]
  unfold Nat.isValidChar at hv
  omega

lemma unitChars_toNat (cs : List Char) : unitChars (cs.map Char.toNat) = some cs := by
  induction cs with
  | nil => rfl
  | cons c cs ih =>
    obtain ⟨hh, hl⟩ := not_surrogate c
    cases cs with
    | nil => simp [unitChars, hh, hl]
    | cons d cs =>
      rw [List.map_cons] at ih
      simp [unitChars, hh, hl, ih]

/-! ### Numbers -/

lemma digit_of_mem {n : ℕ} (h : c ∈ Nat.toDigits 10 n) :
    Text.isDecimalDigit c = true ∧ isWordChar c = true := by
  have hk : ∀ k < 10, Text.isDecimalDigit (Nat.digitChar k) = true ∧
      isWordChar (Nat.digitChar k) = true := by
    decide
  obtain ⟨k, hlt, rfl⟩ := Rendering.mem_toDigits (by omega) h
  exact hk k hlt

lemma eq_nil_of_toDigits_eq_cons (n : ℕ) (h : Nat.toDigits 10 n = '0' :: cs) : cs = [] := by
  induction n using Nat.strongRecOn generalizing cs with
  | ind n ih =>
    rw [Nat.toDigits_eq_if (by decide)] at h
    split at h
    · exact (List.cons.inj h).2.symm
    · next hn =>
      cases hd : Nat.toDigits 10 (n / 10) with
      | nil => exact absurd hd Nat.toDigits_ne_nil
      | cons d ds =>
        rw [hd] at h
        obtain ⟨rfl, -⟩ := List.cons.inj h
        obtain rfl := ih (n / 10) (by omega) hd
        have hv := Spelling.decimalValue_padded 0 (n / 10)
        rw [hd] at hv
        have hz : 0 = n / 10 := hv
        omega

lemma afterInteger?_toDigits (n : ℕ) : afterInteger? (Nat.toDigits 10 n) = some [] := by
  cases h : Nat.toDigits 10 n with
  | nil => exact absurd h Nat.toDigits_ne_nil
  | cons d ds =>
    have hd : ∀ x ∈ d :: ds, Text.isDecimalDigit x = true := fun x hx => (digit_of_mem (h ▸ hx)).1
    by_cases hz : d = '0'
    · subst hz
      rw [eq_nil_of_toDigits_eq_cons n h]
      rfl
    · rw [afterInteger?, if_pos (hd d (by simp))]
      · rw [List.dropWhile_eq_nil_iff.mpr fun x hx => hd x (List.mem_cons_of_mem d hx)]
      · exact hz

lemma word?_toDigits (n : ℕ) : word? (Nat.toDigits 10 n) = some (.number (Nat.toDigits 10 n)) := by
  have hne : ∀ d ds, Text.isDecimalDigit d = false → Nat.toDigits 10 n ≠ d :: ds := by
    intro d ds hf he
    have ht := (digit_of_mem (n := n) (he ▸ List.mem_cons_self)).1
    rw [hf] at ht
    cases ht
  have hi : isNumber (Nat.toDigits 10 n) = true := by
    unfold isNumber
    split
    · next cs he => exact absurd he (hne '-' cs (by decide))
    · simp only [afterInteger?_toDigits]
      rfl
  rw [word?, if_neg (by simpa using hne 'n' _ (by decide)),
    if_neg (by simpa using hne 't' _ (by decide)), if_neg (by simpa using hne 'f' _ (by decide)),
    if_pos hi]

/-! ### Reading -/

def Stops (cs : List Char) : Prop :=
  ∀ c ∈ cs.head?, isWordChar c = false

def run (cs : List Char) (st : State) : Option State :=
  (tokens cs).bind (·.foldlM next st)

/-- Reading the text leads from one state to another wherever no word goes on behind it. -/
def Reads (cs : List Char) (st st' : State) : Prop :=
  ∀ rest, Stops rest → run (cs ++ rest) st = run rest st'

variable {ds : List Char} {st st' st'' : State} {t : Token}

lemma reads_nil (st : State) : Reads [] st st :=
  fun _ _ => rfl

lemma Reads.append (h : Reads cs st st') (h' : Reads (c :: ds) st' st'')
    (hc : isWordChar c = false) : Reads (cs ++ c :: ds) st st'' := by
  intro rest hr
  have hs : Stops (c :: ds ++ rest) := by
    intro d hd
    cases hd
    exact hc
  rw [List.append_assoc, h _ hs, h' _ hr]

lemma Reads.blank (h : Reads cs st st') (hc : isSpace c = true) : Reads (c :: cs) st st' := by
  intro rest hr
  rw [List.cons_append, run, tokens, if_pos hc]
  exact h rest hr

lemma Reads.blanks (h : Reads cs st st') (n : ℕ) : Reads (List.replicate n ' ' ++ cs) st st' := by
  induction n with
  | zero => exact h
  | succ n ih => exact ih.blank rfl

lemma run_of_tokens {rest : List Char} (h : tokens cs = (tokens rest).map (t :: ·))
    (hn : next st t = some st') : run cs st = run rest st' := by
  rw [run, run, h]
  cases tokens rest with
  | none => rfl
  | some ts => simp [hn]

lemma isSpace_of_punctuation? (h : punctuation? c = some t) : isSpace c = false := by
  rw [Bool.eq_false_iff]
  intro hs
  simp only [isSpace, Bool.or_eq_true, beq_iff_eq] at hs
  rcases hs with ((rfl | rfl) | rfl) | rfl <;> cases h

lemma Reads.mark (h : Reads cs st' st'') (hc : punctuation? c = some t)
    (hn : next st t = some st') : Reads (c :: cs) st st'' := by
  intro rest hr
  rw [← h rest hr]
  apply run_of_tokens _ hn
  rw [List.cons_append, tokens, if_neg (by simp [isSpace_of_punctuation? hc]), hc]

lemma reads_quote (hn : next st (.string (some s)) = some st') :
    Reads (quote s).toList st st' := by
  intro rest _
  apply run_of_tokens _ hn
  have hu := stringUnits_flatMap s.toList rest
  have hq : (quote s).toList ++ rest = '"' :: (s.toList.flatMap escape ++ '"' :: rest) := by
    simp [quote]
  have hp : punctuation? '"' = none := rfl
  rw [hq, tokens, if_neg (by decide), hp]
  dsimp only
  rw [if_pos rfl]
  split
  · next h =>
    rw [hu] at h
    cases h
    rw [unitChars_toNat, Option.map_some, String.ofList_toList]
  · next h => simp [hu] at h

lemma reads_number {n : ℕ} (hn : next st (.scalar (.number (toString n).toList)) = some st') :
    Reads (toString n).toList st st' := by
  intro rest hr
  apply run_of_tokens _ hn
  rw [Nat.toString_eq_repr, Nat.toList_repr]
  have hw := word?_toDigits n
  cases h : Nat.toDigits 10 n with
  | nil => exact absurd h Nat.toDigits_ne_nil
  | cons d ds =>
    have hd : ∀ x ∈ d :: ds, isWordChar x = true := fun x hx => (digit_of_mem (h ▸ hx)).2
    have hds : ∀ x ∈ ds, isWordChar x = true := fun x hx => hd x (List.mem_cons_of_mem d hx)
    have hd' := hd d (by simp)
    simp only [isWordChar, Bool.and_eq_true, Bool.not_eq_true', bne_iff_ne, ne_eq,
      Option.isNone_iff_eq_none] at hd'
    obtain ⟨⟨hs, hp⟩, hq⟩ := hd'
    have ht : rest.takeWhile isWordChar = [] ∧ rest.dropWhile isWordChar = rest := by
      cases rest with
      | nil => exact ⟨rfl, rfl⟩
      | cons c cs => simp [hr c rfl]
    rw [h] at hw
    rw [List.cons_append, tokens, if_neg (by simp [hs]), hp]
    dsimp only
    rw [if_neg hq, List.takeWhile_append_of_pos hds, List.dropWhile_append_of_pos hds, ht.1, ht.2,
      List.append_nil, hw]
    rfl

/-! ### Brackets -/

/-- How a list of parts is gathered between two brackets: `due acc` waits for a part behind those of
`acc`, `filled acc a` has read the part `a` there, and `first` waits for a first part or the end. -/
structure Brackets (α : Type) where
  opening : Char
  closing : Char
  openToken : Token
  closeToken : Token
  first : State
  due : List α → State
  filled : List α → α → State
  done : List α → State
  opening_eq : punctuation? opening = some openToken
  closing_eq : punctuation? closing = some closeToken
  next_first : next first closeToken = some (done [])
  next_comma : ∀ acc a, next (filled acc a) .comma = some (due (a :: acc))
  next_close : ∀ acc a, next (filled acc a) closeToken = some (done (acc.reverse ++ [a]))

def arrayBrackets (stack : List Frame) : Brackets Value where
  opening := '['
  closing := ']'
  openToken := .openArray
  closeToken := .closeArray
  first := .item stack
  due acc := .value (.array acc :: stack)
  filled acc v := .after (.array acc :: stack) v
  done vs := .after stack (.array vs)
  opening_eq := rfl
  closing_eq := rfl
  next_first := rfl
  next_comma _ _ := rfl
  next_close acc a := by simp [next, afterToken]

def objectBrackets (stack : List Frame) : Brackets (Chars × Value) where
  opening := '\x7b'
  closing := '\x7d'
  openToken := .openObject
  closeToken := .closeObject
  first := .member stack
  due acc := .key stack acc
  filled acc m := .after (.object acc m.1 :: stack) m.2
  done ps := .after stack (.object ps)
  opening_eq := rfl
  closing_eq := rfl
  next_first := rfl
  next_comma _ _ := rfl
  next_close acc a := by simp [next, afterToken]

section

variable {α : Type} (b : Brackets α) {item opening closing : String} {items : List String} {a : α}
  {as : List α} {n : ℕ}

lemma reads_items
    (hi : List.Forall₂ (fun i a => ∀ acc, Reads i.toList (b.due acc) (b.filled acc a)) items as)
    {acc : List α} (h : Reads item.toList st (b.filled acc a)) :
    Reads ((",\n".intercalate ((item :: items).map (Text.blanks n ++ ·))).toList ++
      '\n' :: (Text.blanks (n - 2)).toList ++ [b.closing]) st (b.done (acc.reverse ++ a :: as)) := by
  induction hi generalizing item st a acc with
  | nil =>
    have hl := (((reads_nil _).mark b.closing_eq (b.next_close acc a)).blanks (n - 2)).blank
      (by decide : isSpace '\n')
    have hr := (h.blanks n).append hl (by decide)
    simpa [Text.blanks] using hr
  | cons hb hi ih =>
    have hl := ((ih (hb (a :: acc))).blank (by decide : isSpace '\n')).mark
      (rfl : punctuation? ',' = some .comma) (b.next_comma acc a)
    have hr := (h.blanks n).append hl (by decide)
    simpa [Text.blanks] using hr

lemma reads_bracketed (ho : opening.toList = [b.opening]) (hc : closing.toList = [b.closing])
    (hs : next st b.openToken = some b.first)
    (hi : List.Forall₂ (fun i a => Reads i.toList b.first (b.filled [] a) ∧
      ∀ acc, Reads i.toList (b.due acc) (b.filled acc a)) items as) :
    Reads (bracketed opening closing n items).toList st (b.done as) := by
  cases hi with
  | nil =>
    have hr := ((reads_nil _).mark b.closing_eq b.next_first).mark b.opening_eq hs
    simpa [bracketed, ho, hc] using hr
  | cons h hi =>
    have hr := ((reads_items b (hi.imp fun _ _ h => h.2) (n := n) h.1).blank
      (by decide : isSpace '\n')).mark b.opening_eq hs
    simpa [bracketed, ho, hc] using hr

end

/-! ### Values -/

def Denotes (s : String) (v : Value) : Prop :=
  ∀ stack, Reads s.toList (.value stack) (.after stack v) ∧
    Reads s.toList (.item stack) (.after (.array [] :: stack) v)

variable {v : Value} {vs : List Value} {items : List String} {members : List (String × String)}
  {ps : List (Chars × Value)} {n : ℕ} {stack : List Frame}

lemma denotes_quote (s : String) : Denotes (quote s) (.string (some s)) :=
  fun _ => ⟨reads_quote rfl, reads_quote rfl⟩

lemma denotes_number (n : ℕ) : Denotes (toString n) (.number (toString n).toList) :=
  fun _ => ⟨reads_number rfl, reads_number rfl⟩

lemma reads_array (h : List.Forall₂ Denotes items vs)
    (hs : next st .openArray = some (.item stack)) :
    Reads (array n items).toList st (.after stack (.array vs)) := by
  have hi := h.imp fun i v h =>
    And.intro (h stack).2 fun acc => (h (.array acc :: stack)).1
  exact reads_bracketed (arrayBrackets stack) (by decide : "[".toList = ['['])
    (by decide : "]".toList = [']']) hs hi

lemma denotes_array (h : List.Forall₂ Denotes items vs) : Denotes (array n items) (.array vs) :=
  fun _ => ⟨reads_array h rfl, reads_array h rfl⟩

def DenotesMember (m : String × String) (p : Chars × Value) : Prop :=
  p.1 = some m.1 ∧ Denotes m.2 p.2

lemma DenotesMember.reads {m : String × String} {p : Chars × Value} (h : DenotesMember m p)
    {acc : List (Chars × Value)} (hs : next st (.string p.1) = some (.colon stack acc p.1)) :
    Reads (quote m.1 ++ ": " ++ m.2).toList st (.after (.object acc p.1 :: stack) p.2) := by
  obtain ⟨key, v⟩ := p
  obtain ⟨rfl, hv⟩ := h
  have hl := ((hv _).1.blank (by decide : isSpace ' ')).mark
    (rfl : punctuation? ':' = some .colon) (rfl : next (.colon stack acc (some m.1)) .colon = some _)
  have hr := (reads_quote hs).append hl (by decide)
  simpa using hr

lemma reads_object (h : List.Forall₂ DenotesMember members ps)
    (hs : next st .openObject = some (.member stack)) :
    Reads (object n members).toList st (.after stack (.object ps)) := by
  have hi : List.Forall₂ (fun i p => Reads i.toList (objectBrackets stack).first
        ((objectBrackets stack).filled [] p) ∧
      ∀ acc, Reads i.toList ((objectBrackets stack).due acc) ((objectBrackets stack).filled acc p))
      (members.map fun m => quote m.1 ++ ": " ++ m.2) ps := by
    rw [List.forall₂_map_left_iff]
    exact h.imp fun m p h => ⟨h.reads rfl, fun acc => h.reads rfl⟩
  exact reads_bracketed (objectBrackets stack) (by decide : "\x7b".toList = ['\x7b'])
    (by decide : "\x7d".toList = ['\x7d']) hs hi

lemma denotes_object (h : List.Forall₂ DenotesMember members ps) :
    Denotes (object n members) (.object ps) :=
  fun _ => ⟨reads_object h rfl, reads_object h rfl⟩

lemma Denotes.read (h : Denotes s v) : read? s = some v := by
  have hr := (h []).1 [] (by simp [Stops])
  rw [List.append_nil] at hr
  have ht : run s.toList (.value []) = some (.after [] v) := by
    rw [hr, run, tokens]
    rfl
  simp only [run] at ht
  simp only [read?, Option.bind_eq_bind]
  rw [← Option.bind_assoc, ht]
  rfl

end TuiMarkup.Proofs.JsonText
