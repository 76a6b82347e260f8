import Mathlib.Tactic.Lemma
import Mathlib.Tactic.SplitIfs
import TuiMarkup.Code.Literal
import TuiMarkup.Proofs.Splitting

/-! Strings and lists of strings, read back from the code that is written for them. -/

namespace TuiMarkup.Proofs.QuotedText

open Splitting

/-! ### Readers -/

def unescape? : Char → Option Char
  | '\\' => some '\\'
  | '"' => some '"'
  | 'n' => some '\n'
  | 'r' => some '\r'
  | 't' => some '\t'
  | '0' => some '\x00'
  | _ => none

/-- Reads up to the first quote that is not escaped, and gives what is left behind it. -/
def readBody : List Char → Option (List Char × List Char)
  | [] => none
  | '"' :: rest => some ([], rest)
  | '\\' :: c :: rest => do
    let d ← unescape? c
    let (v, rest) ← readBody rest
    return (d :: v, rest)
  | c :: rest =>
    if c = '\\' then none
    else do
      let (v, rest) ← readBody rest
      return (c :: v, rest)

def readString : List Char → Option (String × List Char)
  | '"' :: rest => (readBody rest).map fun r => (String.ofList r.1, r.2)
  | _ => none

lemma readBody_length {cs v rest : List Char} (h : readBody cs = some (v, rest)) :
    rest.length < cs.length := by
  fun_induction readBody cs generalizing v rest with
  | case1 => cases h
  | case2 =>
    cases h
    exact Nat.lt_succ_self _
  | case3 c tail ih =>
    simp only [Option.bind_eq_bind, Option.bind_eq_some_iff] at h
    obtain ⟨d, -, ⟨w, r⟩, hr, he⟩ := h
    cases he
    have hl := ih hr
    simp only [List.length_cons]
    omega
  | case4 => cases h
  | case5 c tail _ _ _ ih =>
    simp only [Option.bind_eq_bind, Option.bind_eq_some_iff] at h
    obtain ⟨⟨w, r⟩, hr, he⟩ := h
    cases he
    have hl := ih hr
    simp only [List.length_cons]
    omega

lemma readString_length {cs rest : List Char} {v : String} (h : readString cs = some (v, rest)) :
    rest.length < cs.length := by
  rw [readString.eq_def] at h
  split at h
  next tail =>
    obtain ⟨⟨w, r⟩, hr, he⟩ := Option.map_eq_some_iff.mp h
    cases he
    exact Nat.lt_succ_of_lt (readBody_length hr)
  · cases h

/-- Reads strings with commas between them, up to the brace that closes the list and the text. -/
def readEntries (cs : List Char) : Option (List String) :=
  match _h : readString cs with
  | some (v, [' ', '\x7d']) => some [v]
  | some (v, ',' :: ' ' :: rest) => (readEntries rest).map (v :: ·)
  | _ => none
termination_by cs.length
decreasing_by
  have hl := readString_length _h
  simp only [List.length_cons] at hl
  omega

def readArray (cs : List Char) : Option (List String) :=
  if cs = "System.Array.Empty<string>()".toList then some []
  else (Text.afterStartChars? "new[] \x7b ".toList cs).bind readEntries

/-! ### Strings -/

lemma escape_cases (c : Char) :
    (∃ e, Literal.escape c = ['\\', e] ∧ unescape? e = some c) ∨
      (Literal.escape c = [c] ∧ c ≠ '"' ∧ c ≠ '\\') := by
  rw [Literal.escape]
  split_ifs with hb hq hn hr ht hz
  · exact .inl ⟨_, rfl, by rw [hb]; rfl⟩
  · exact .inl ⟨_, rfl, by rw [hq]; rfl⟩
  · exact .inl ⟨_, rfl, by rw [hn]; rfl⟩
  · exact .inl ⟨_, rfl, by rw [hr]; rfl⟩
  · exact .inl ⟨_, rfl, by rw [ht]; rfl⟩
  · exact .inl ⟨_, rfl, by rw [hz]; rfl⟩
  · exact .inr ⟨rfl, hq, hb⟩

lemma readBody_plain {c : Char} {cs : List Char} (hq : c ≠ '"') (hb : c ≠ '\\') :
    readBody (c :: cs) = (readBody cs).bind fun r => some (c :: r.1, r.2) := by
  rw [readBody.eq_def]
  split <;> simp_all

lemma readBody_escape (c : Char) (cs : List Char) :
    readBody (Literal.escape c ++ cs) = (readBody cs).bind fun r => some (c :: r.1, r.2) := by
  rcases escape_cases c with ⟨e, he, hu⟩ | ⟨he, hq, hb⟩
  · rw [he, List.cons_append, List.singleton_append, readBody, hu]
    rfl
  · rw [he, List.singleton_append, readBody_plain hq hb]

lemma readBody_escaped (v rest : List Char) :
    readBody (v.flatMap Literal.escape ++ '"' :: rest) = some (v, rest) := by
  induction v with
  | nil => rfl
  | cons c v ih => rw [List.flatMap_cons, List.append_assoc, readBody_escape, ih, Option.bind_some]

lemma readString_quote (v : String) (rest : List Char) :
    readString ((Literal.quote v).toList ++ rest) = some (v, rest) := by
  rw [Literal.quote, String.toList_ofList, List.cons_append, List.cons_append, List.append_assoc,
    List.singleton_append, readString, readBody_escaped, Option.map_some, String.ofList_toList]

/-! ### Lists of strings -/

lemma readEntries_last (v : String) :
    readEntries ((Literal.quote v).toList ++ [' ', '\x7d']) = some [v] := by
  have hr := readString_quote v [' ', '\x7d']
  rw [readEntries]
  split <;> simp_all

lemma readEntries_more (v : String) (rest : List Char) :
    readEntries ((Literal.quote v).toList ++ ',' :: ' ' :: rest) =
      (readEntries rest).map (v :: ·) := by
  have hr := readString_quote v (',' :: ' ' :: rest)
  rw [readEntries]
  split <;> simp_all

lemma readEntries_joined {vs : List String} (h : vs ≠ []) :
    readEntries ((", ".intercalate (vs.map Literal.quote)).toList ++ [' ', '\x7d']) = some vs := by
  induction vs with
  | nil => exact absurd rfl h
  | cons v vs ih =>
    by_cases hn : vs = []
    · subst hn
      rw [List.map_singleton, String.intercalate_singleton, readEntries_last]
    · have hm : vs.map Literal.quote ≠ [] := by simpa using hn
      have hc : ", ".toList = [',', ' '] := by decide
      rw [List.map_cons, String.intercalate_cons_of_ne_nil hm, String.toList_append,
        String.toList_append, hc, List.append_assoc, List.append_assoc]
      rw [List.cons_append, List.singleton_append, readEntries_more, ih hn, Option.map_some]

lemma readArray_arrayCode (value : String) :
    readArray (Literal.arrayCode value).toList = some (Literal.arrayEntries value) := by
  rw [Literal.arrayCode]
  split
  next h =>
    rw [h]
    rfl
  next vs h =>
    rw [String.toList_append, String.toList_append, List.append_assoc, readArray, if_neg,
      Text.afterStartChars?_eq_some.mpr rfl]
    · exact readEntries_joined h
    · simp

lemma arrayEntries_eq (value : String) :
    Literal.arrayEntries value = ((Text.pieces ',' value).map Text.trim).filter (· ≠ "") := by
  have ht : Text.trimmed? = Option.guard (· ≠ "") ∘ Text.trim := by
    funext p
    by_cases hp : Text.trim p = "" <;> simp [Text.trimmed?, Option.guard, hp]
  rw [Literal.arrayEntries, ht, ← List.filterMap_map, List.filterMap_eq_filter]

/-- A string is read back from its code with nothing in it taken for the closing quote, whatever
follows it. From the code for a list its entries are read back; where one ends and the next one
begins is told by the quotes alone. -/
theorem quoted_read_back :
    (∀ v rest, readString ((Literal.quote v).toList ++ rest) = some (v, rest)) ∧
    (∀ v w rest rest', (Literal.quote v).toList ++ rest = (Literal.quote w).toList ++ rest' →
      v = w ∧ rest = rest') ∧
    ∀ value : String, ¬ ('(' ∈ value.toList ∧ ')' ∈ value.toList) →
      ∃ code parts, Literal.ofValue value (some .array) = .converted code ∧
        value = ",".intercalate parts ∧ parts ≠ [] ∧ (∀ p ∈ parts, ',' ∉ p.toList) ∧
        readArray code.toList = some ((parts.map Text.trim).filter (· ≠ "")) := by
  refine ⟨readString_quote, ?_, ?_⟩
  · intro v w rest rest' he
    have hv := readString_quote v rest
    rw [he, readString_quote, Option.some_inj, Prod.mk.injEq] at hv
    exact ⟨hv.1.symm, hv.2.symm⟩
  · intro value h
    have hc : looksLikeCode value = false := by simpa [looksLikeCode, Text.hasChar] using h
    refine ⟨Literal.arrayCode value, Text.pieces ',' value, ?_, ?_, pieces_ne_nil ',' value,
      fun p hp => not_mem_of_mem_pieces hp, ?_⟩
    · rw [Literal.ofValue, hc]
      rfl
    · exact (intercalate_pieces (by decide) value).symm
    · rw [readArray_arrayCode, arrayEntries_eq]

theorem quoted_read_back_braces :
    let value := " say \"hi\", \" \x7d , ,(\\"
    ¬ ('(' ∈ value.toList ∧ ')' ∈ value.toList) ∧
      ∃ code, Literal.ofValue value (some .array) = .converted code ∧
        readArray code.toList = some ["say \"hi\"", "\" \x7d", "(\\"] := by
  intro value
  have h : ¬ ('(' ∈ value.toList ∧ ')' ∈ value.toList) := by decide
  obtain ⟨code, parts, hc, hv, hn, hp, hr⟩ := quoted_read_back.2.2 value h
  have hs : parts = Text.pieces ',' value := by
    rw [hv, pieces_intercalate (by decide) hp hn]
  refine ⟨h, code, hc, ?_⟩
  rw [hr, hs]
  decide

end TuiMarkup.Proofs.QuotedText
