import Mathlib.Data.List.DropRight
import Mathlib.Tactic.Lemma
import TuiMarkup.Proofs.Splitting
import TuiMarkup.Text.Blank

/-! Texts between blanks. -/

namespace TuiMarkup.Proofs.Trimming

open Splitting

variable {a b s : String} {cs ds es : List Char} {sep : Char}

def IsBlank (s : String) : Prop :=
  ∀ c ∈ s.toList, Text.isBlank c = true

/-! ### Characters -/

lemma trimEndChars_append (h : ∀ c ∈ ds, Text.isBlank c = true) (cs : List Char) :
    Text.trimEndChars (cs ++ ds) = Text.trimEndChars cs := by
  rw [Text.trimEndChars, List.reverse_append, List.dropWhile_append_of_pos]
  · rfl
  · exact fun c hc => h c (List.mem_reverse.mp hc)

lemma trimChars_around (hd : ∀ c ∈ ds, Text.isBlank c = true) (cs : List Char)
    (he : ∀ c ∈ es, Text.isBlank c = true) :
    Text.trimChars (ds ++ cs ++ es) = Text.trimChars cs := by
  rw [Text.trimChars, Text.trimStartChars, List.append_assoc, List.dropWhile_append_of_pos hd,
    List.dropWhile_append]
  split
  next hn =>
    rw [List.dropWhile_eq_nil_iff.mpr he, Text.trimChars, Text.trimStartChars, List.isEmpty_iff.mp hn]
  · exact trimEndChars_append he _

lemma exists_around (cs : List Char) : ∃ ds es, (∀ c ∈ ds, Text.isBlank c = true) ∧
    (∀ c ∈ es, Text.isBlank c = true) ∧ cs = ds ++ Text.trimChars cs ++ es := by
  refine ⟨cs.takeWhile Text.isBlank, (Text.trimStartChars cs).rtakeWhile Text.isBlank, ?_, ?_, ?_⟩
  · exact fun c hc => List.mem_takeWhile_imp hc
  · exact fun c hc => List.mem_rtakeWhile_imp hc
  · have hr : Text.trimChars cs ++ (Text.trimStartChars cs).rtakeWhile Text.isBlank =
        Text.trimStartChars cs := List.rdropWhile_append_rtakeWhile
    rw [List.append_assoc, hr]
    exact List.takeWhile_append_dropWhile.symm

lemma trimChars_eq_self (hh : ∀ c ∈ cs.head?, Text.isBlank c = false)
    (hl : ∀ c ∈ cs.getLast?, Text.isBlank c = false) : Text.trimChars cs = cs := by
  have hs : Text.trimStartChars cs = cs := by
    cases cs with
    | nil => rfl
    | cons c cs => exact List.dropWhile_cons_of_neg (by simp [hh c rfl])
  rw [Text.trimChars, hs]
  apply List.rdropWhile_eq_self_iff.mpr
  intro hn
  simp [hl _ (List.getLast?_eq_some_getLast hn)]

/-! ### Pieces -/

lemma not_mem_of_isBlank (hs : Text.isBlank sep = false) (hd : ∀ c ∈ ds, Text.isBlank c = true) :
    sep ∉ ds := by
  intro hm
  rw [hd sep hm] at hs
  cases hs

lemma map_trimChars_after (hs : Text.isBlank sep = false) (hd : ∀ c ∈ ds, Text.isBlank c = true)
    (cs : List Char) :
    (Text.piecesChars sep (ds ++ cs)).map Text.trimChars =
      (Text.piecesChars sep cs).map Text.trimChars := by
  have hn := not_mem_of_isBlank hs hd
  have ht : ∀ cs, Text.trimChars (ds ++ cs) = Text.trimChars cs := by
    intro cs
    have ht := trimChars_around hd cs (List.forall_mem_nil _)
    rwa [List.append_nil] at ht
  by_cases hm : sep ∈ cs
  · obtain ⟨xs, ys, rfl, hx⟩ := List.eq_append_cons_of_mem hm
    have hx' : sep ∉ ds ++ xs := by simp [hn, hx]
    rw [← List.append_assoc, piecesChars_append, piecesChars_append, piecesChars_of_not_mem hx,
      piecesChars_of_not_mem hx']
    simp [ht]
  · have hm' : sep ∉ ds ++ cs := by simp [hn, hm]
    rw [piecesChars_of_not_mem hm, piecesChars_of_not_mem hm']
    simp [ht]

lemma map_trimChars_before (hs : Text.isBlank sep = false) (he : ∀ c ∈ es, Text.isBlank c = true)
    (cs : List Char) :
    (Text.piecesChars sep (cs ++ es)).map Text.trimChars =
      (Text.piecesChars sep cs).map Text.trimChars := by
  have hn := not_mem_of_isBlank hs he
  have ht : ∀ cs, Text.trimChars (cs ++ es) = Text.trimChars cs :=
    fun cs => trimChars_around (List.forall_mem_nil _) cs he
  by_cases hm : sep ∈ cs
  · obtain ⟨xs, ys, hr, hx⟩ := List.eq_append_cons_of_mem (List.mem_reverse.mpr hm)
    have hc : cs = ys.reverse ++ sep :: xs.reverse := by
      rw [← List.reverse_reverse cs, hr]
      simp
    have hx₁ : sep ∉ xs.reverse := by simpa using hx
    have hx₂ : sep ∉ xs.reverse ++ es := by simp [hn, hx]
    rw [hc, List.append_assoc, List.cons_append, piecesChars_append, piecesChars_append,
      piecesChars_of_not_mem hx₁, piecesChars_of_not_mem hx₂]
    simp [ht]
  · have hm' : sep ∉ cs ++ es := by simp [hn, hm]
    rw [piecesChars_of_not_mem hm, piecesChars_of_not_mem hm']
    simp [ht]

/-! ### Texts -/

lemma IsBlank.not_mem (ha : IsBlank a) (hs : Text.isBlank sep = false) : sep ∉ a.toList :=
  not_mem_of_isBlank hs ha

lemma trim_around (ha : IsBlank a) (s : String) (hb : IsBlank b) :
    Text.trim (a ++ s ++ b) = Text.trim s := by
  rw [Text.trim, String.toList_append, String.toList_append, trimChars_around ha s.toList hb]
  rfl

lemma isBlank_empty : IsBlank "" := by
  simp [IsBlank]

lemma trim_after (ha : IsBlank a) (s : String) : Text.trim (a ++ s) = Text.trim s := by
  have ht := trim_around ha s isBlank_empty
  rwa [String.append_empty] at ht

lemma trim_before (s : String) (hb : IsBlank b) : Text.trim (s ++ b) = Text.trim s := by
  have ht := trim_around isBlank_empty s hb
  rwa [String.empty_append] at ht

lemma exists_trim (s : String) : ∃ a b, IsBlank a ∧ IsBlank b ∧ s = a ++ Text.trim s ++ b := by
  obtain ⟨ds, es, hd, he, hs⟩ := exists_around s.toList
  refine ⟨String.ofList ds, String.ofList es, ?_, ?_, ?_⟩
  · simpa [IsBlank] using hd
  · simpa [IsBlank] using he
  · rw [← String.toList_inj]
    simpa [Text.trim] using hs

lemma trim_eq_self (hh : ∀ c ∈ s.toList.head?, Text.isBlank c = false)
    (hl : ∀ c ∈ s.toList.getLast?, Text.isBlank c = false) : Text.trim s = s := by
  rw [Text.trim, trimChars_eq_self hh hl, String.ofList_toList]

lemma trim_of_forall (h : ∀ c ∈ s.toList, Text.isBlank c = false) : Text.trim s = s :=
  trim_eq_self (fun c hc => h c (List.mem_of_mem_head? hc))
    fun c hc => h c (List.mem_of_mem_getLast? hc)

lemma trim_eq_empty : Text.trim s = "" ↔ IsBlank s := by
  constructor
  · intro h
    obtain ⟨a, b, ha, hb, hs⟩ := exists_trim s
    rw [hs, h, String.append_empty]
    intro c hc
    rw [String.toList_append] at hc
    exact (List.mem_append.mp hc).elim (ha c) (hb c)
  · intro h
    have ht := trim_after h ""
    rwa [String.append_empty] at ht

theorem map_trim_pieces (hs : Text.isBlank sep = false) (s : String) :
    (Text.pieces sep (Text.trim s)).map Text.trim = (Text.pieces sep s).map Text.trim := by
  obtain ⟨ds, es, hd, he, hc⟩ := exists_around s.toList
  have hp : (Text.piecesChars sep (Text.trimChars s.toList)).map Text.trimChars =
      (Text.piecesChars sep s.toList).map Text.trimChars := by
    conv_rhs => rw [hc]
    rw [map_trimChars_before hs he, map_trimChars_after hs hd]
  have ht : Text.trim ∘ String.ofList = String.ofList ∘ Text.trimChars := by
    funext cs
    simp [Text.trim]
  rw [Text.pieces, Text.pieces, List.map_map, List.map_map, ht, ← List.map_map, ← List.map_map,
    ← hp, Text.trim, String.toList_ofList]

end TuiMarkup.Proofs.Trimming
