import Mathlib.Logic.Relation
import Mathlib.Tactic.Lemma
import TuiMarkup.Proofs.Places
import TuiMarkup.Proofs.Splitting

/-! Places of paths that are joined, or cut before their last name. -/

namespace TuiMarkup.Proofs.PathSegments

open Places Splitting

variable {fs : FileSystem} {p : Path} {absolute : Bool} {name q s : String}
  {place ss : List String}

/-! ### Roots -/

lemma slash_toList : "/".toList = ['/'] := by decide

lemma startsWith_slash (a : String) : Text.startsWith "/" a = (a.toList.head? == some '/') := by
  rw [Text.startsWith, Text.afterStart?, Option.isSome_map]
  cases a.toList with
  | nil => rfl
  | cons c cs =>
    by_cases hc : '/' = c
    · subst hc
      rfl
    · simp [Text.afterStartChars?, hc, Ne.symm hc]

lemma isAbsolute_append {a : String} (h : a ≠ "") (b : String) :
    Path.isAbsolute ⟨a ++ b⟩ = Path.isAbsolute ⟨a⟩ := by
  obtain ⟨c, cs, hc⟩ := List.exists_cons_of_ne_nil (mt String.toList_eq_nil_iff.mp h)
  rw [Path.isAbsolute, Path.isAbsolute, startsWith_slash, startsWith_slash, String.toList_append, hc]
  rfl

lemma isAbsolute_of_not_mem (h : '/' ∉ q.toList) : Path.isAbsolute ⟨q⟩ = false := by
  rw [Path.isAbsolute, startsWith_slash]
  cases hq : q.toList with
  | nil => rfl
  | cons c cs =>
    rw [hq] at h
    simpa using Ne.symm (List.ne_of_not_mem_cons h)

lemma advance_idle {isLeading : Bool} (h : Path.isIdle isLeading s = true) :
    advance place s = place := by
  have hs : s = "" ∨ s = "." ∧ isLeading = false := by simpa [Path.isIdle] using h
  rw [advance, if_pos (by rcases hs with rfl | ⟨rfl, -⟩ <;> rfl)]

lemma pieces_of_isAbsolute (h : p.isAbsolute = true) :
    ∃ cs, Text.pieces '/' p.text = "" :: (Text.piecesChars '/' cs).map String.ofList := by
  rw [Path.isAbsolute, startsWith_slash, beq_iff_eq, List.head?_eq_some_iff] at h
  obtain ⟨cs, hcs⟩ := h
  refine ⟨cs, ?_⟩
  rw [Text.pieces, hcs, Text.piecesChars, if_pos rfl]
  rfl

lemma segments_ne_nil (p : Path) : p.segments ≠ [] := by
  rw [Path.segments]
  split
  next h =>
    obtain ⟨cs, hcs⟩ := pieces_of_isAbsolute h
    rw [hcs, List.tail_cons]
    exact mt List.map_eq_nil_iff.mp (piecesChars_ne_nil '/' cs)
  · exact mt List.map_eq_nil_iff.mp (piecesChars_ne_nil '/' p.text.toList)

lemma placeOf_eq (fs : FileSystem) (p : Path) :
    placeOf fs p = (Text.pieces '/' p.text).foldl advance (startOf fs p) := by
  rw [placeOf, Path.segments]
  split
  next h =>
    obtain ⟨cs, hcs⟩ := pieces_of_isAbsolute h
    rw [hcs]
    rfl
  · rfl

/-! ### Joined paths -/

lemma exists_of_endsWith {a : String} (h : Text.endsWith "/" a = true) : ∃ b, a = b ++ "/" := by
  rw [Text.endsWith, Text.beforeEnd?, Option.isSome_map, Text.beforeEndChars?, Option.isSome_map,
    Option.isSome_iff_exists] at h
  obtain ⟨cs, hcs⟩ := h
  have hr := congrArg List.reverse (Text.afterStartChars?_eq_some.mp hcs)
  refine ⟨String.ofList cs.reverse, String.toList_inj.mp ?_⟩
  rw [String.toList_append, String.toList_ofList]
  simpa using hr

lemma join_cases (h : p.text ≠ "") :
    ∃ b, (p.text = b ∧ Text.endsWith "/" p.text = false ∨ p.text = b ++ "/") ∧
      ∀ q, Path.isAbsolute ⟨q⟩ = false → (p.join q).text = b ++ "/" ++ q := by
  cases he : Text.endsWith "/" p.text with
  | false =>
    refine ⟨p.text, .inl ⟨rfl, rfl⟩, fun q hq => ?_⟩
    have hq : Text.startsWith "/" q = false := hq
    simp [Path.join, hq, h, he]
  | true =>
    obtain ⟨b, hb⟩ := exists_of_endsWith he
    refine ⟨b, .inr hb, fun q hq => ?_⟩
    have hq : Text.startsWith "/" q = false := hq
    simp [Path.join, hq, he, ← hb]

lemma isAbsolute_join (h : p.text ≠ "") (hq : Path.isAbsolute ⟨q⟩ = false) :
    (p.join q).isAbsolute = p.isAbsolute := by
  obtain ⟨b, hb, hj⟩ := join_cases h
  rw [Path.isAbsolute, hj q hq]
  rcases hb with ⟨rfl, -⟩ | hb
  · rw [String.append_assoc]
    exact isAbsolute_append h ("/" ++ q)
  · rw [← hb]
    exact isAbsolute_append h q

theorem placeOf_join_relative (fs : FileSystem) (p : Path) (hq : Path.isAbsolute ⟨q⟩ = false) :
    placeOf fs (p.join q) = (Text.pieces '/' q).foldl advance (placeOf fs p) := by
  by_cases ht : p.text = ""
  · have hp : p = ⟨""⟩ := by rw [← ht]
    subst hp
    have hj : Path.join ⟨""⟩ q = ⟨q⟩ := by
      have hq : Text.startsWith "/" q = false := hq
      simp [Path.join, hq]
    rw [hj, placeOf_eq, startOf, hq]
    rfl
  · obtain ⟨b, hb, hj⟩ := join_cases ht
    rw [placeOf_eq, placeOf_eq, startOf, startOf, isAbsolute_join ht hq, hj q hq,
      pieces_append slash_toList, List.foldl_append]
    rcases hb with ⟨hb, -⟩ | hb
    · rw [hb]
    · have hp := pieces_append slash_toList b ""
      rw [String.append_empty, ← hb] at hp
      rw [hp, List.foldl_append]
      rfl

theorem placeOf_join (fs : FileSystem) (p : Path) (hq : '/' ∉ q.toList) (hn : Proper q) :
    placeOf fs (p.join q) = placeOf fs p ++ [q] := by
  rw [placeOf_join_relative fs p (isAbsolute_of_not_mem hq), pieces_of_not_mem hq]
  exact advance_proper hn _

/-! ### Parents -/

lemma foldl_trimmedBack (absolute : Bool) (place ss : List String) :
    (Path.trimmedBack absolute ss).reverse.foldl advance place = ss.reverse.foldl advance place := by
  induction ss with
  | nil => rfl
  | cons s ss ih =>
    rw [Path.trimmedBack]
    split
    next h => rw [ih, List.reverse_cons, List.foldl_append, List.foldl_cons, advance_idle h,
      List.foldl_nil]
    · rfl

lemma trimmedBack_suffix (absolute : Bool) (ss : List String) :
    Path.trimmedBack absolute ss <:+ ss := by
  induction ss with
  | nil => exact List.suffix_rfl
  | cons s ss ih =>
    rw [Path.trimmedBack]
    split
    · exact ih.trans (List.suffix_cons s ss)
    · exact List.suffix_rfl

lemma ne_empty_of_trimmedBack (h : Path.trimmedBack absolute ss = s :: place) : s ≠ "" := by
  induction ss with
  | nil => cases h
  | cons x ss ih =>
    rw [Path.trimmedBack] at h
    split at h
    · exact ih h
    next hi =>
      cases h
      rintro rfl
      exact hi rfl

lemma pieces_ofSegments (place : List String) (hs : ∀ s ∈ ss, '/' ∉ s.toList) :
    (Text.pieces '/' (Path.ofSegments absolute ss).text).foldl advance place =
      ss.foldl advance place := by
  have hp : (Text.pieces '/' ("/".intercalate ss)).foldl advance place = ss.foldl advance place := by
    by_cases hn : ss = []
    · subst hn
      rfl
    · rw [pieces_intercalate slash_toList hs hn]
  cases absolute with
  | false => simpa [Path.ofSegments] using hp
  | true =>
    have ha := pieces_append slash_toList "" ("/".intercalate ss)
    rw [String.empty_append] at ha
    rw [← hp, Path.ofSegments, if_pos rfl, ha]
    rfl

lemma isAbsolute_ofSegments (hs : ∀ s ∈ ss, '/' ∉ s.toList)
    (hh : absolute = false → ss.head? ≠ some "") :
    (Path.ofSegments absolute ss).isAbsolute = absolute := by
  cases absolute with
  | true =>
    rw [Path.ofSegments, if_pos rfl, isAbsolute_append (by decide)]
    rfl
  | false =>
    rw [Path.ofSegments, if_neg Bool.false_ne_true, String.empty_append]
    cases ss with
    | nil => rfl
    | cons s ss =>
      obtain ⟨hns, -⟩ := List.forall_mem_cons.mp hs
      by_cases hn : ss = []
      · subst hn
        rw [String.intercalate_singleton, isAbsolute_of_not_mem hns]
      · have hne : s ≠ "" := fun h => hh rfl (by rw [h]; rfl)
        rw [String.intercalate_cons_of_ne_nil hn, String.append_assoc, isAbsolute_append hne,
          isAbsolute_of_not_mem hns]

lemma not_mem_of_mem_segments (h : s ∈ p.segments) : '/' ∉ s.toList := by
  rw [Path.segments] at h
  split at h
  · exact not_mem_of_mem_pieces (List.mem_of_mem_tail h)
  · exact not_mem_of_mem_pieces h

lemma back_suffix (p : Path) : p.back <:+ p.segments.reverse :=
  trimmedBack_suffix ..

lemma text_eq_empty (ha : p.isAbsolute = false) (h : p.segments.head? = some "") : p.text = "" := by
  rw [Path.segments, ha, if_neg Bool.false_ne_true, Text.pieces] at h
  rw [Path.isAbsolute, startsWith_slash] at ha
  cases hc : p.text.toList with
  | nil => exact String.toList_eq_nil_iff.mp hc
  | cons c cs =>
    rw [hc] at h ha
    have hs : c ≠ '/' := by simpa using ha
    obtain ⟨x, xs, hx⟩ := List.exists_cons_of_ne_nil (piecesChars_ne_nil '/' cs)
    rw [Text.piecesChars, if_neg hs, hx] at h
    have hl := congrArg String.toList (Option.some.inj h)
    simp at hl

lemma head_ne_empty (ha : p.isAbsolute = false) (hb : p.back = s :: ss) :
    (Path.trimmedBack p.isAbsolute ss).reverse.head? ≠ some "" := by
  intro hh
  have hs : Path.trimmedBack p.isAbsolute ss <:+ p.segments.reverse :=
    (trimmedBack_suffix _ ss).trans ((List.suffix_cons s ss).trans (hb ▸ back_suffix p))
  have hp : (Path.trimmedBack p.isAbsolute ss).reverse <+: p.segments := by
    rw [← List.reverse_reverse p.segments]
    exact List.reverse_prefix.mpr hs
  obtain ⟨rest, hr⟩ := hp
  have ht : p.text = "" := by
    refine text_eq_empty ha ?_
    rw [← hr, List.head?_append, hh]
    rfl
  have he : p = ⟨""⟩ := by rw [← ht]
  subst he
  cases hb

structure Backward (absolute : Bool) (ss : List String) : Prop where
  noSlash : ∀ s ∈ ss, '/' ∉ s.toList
  first : absolute = false → ss.getLast? ≠ some ""

lemma backward_parent (hb : p.back = s :: ss) :
    Backward p.isAbsolute (Path.trimmedBack p.isAbsolute ss) := by
  refine ⟨fun x hm => ?_, fun ha => ?_⟩
  · have hm : x ∈ p.back := by
      rw [hb]
      exact .tail _ ((trimmedBack_suffix _ ss).subset hm)
    exact not_mem_of_mem_segments (List.mem_reverse.mp ((back_suffix p).subset hm))
  · rw [← List.head?_reverse]
    exact head_ne_empty ha hb

lemma fileName?_cases (h : p.fileName? = some name) :
    ∃ ss, p.back = name :: ss ∧ Proper name ∧ '/' ∉ name.toList := by
  rw [Path.fileName?] at h
  split at h
  · cases h
  next s ss hb =>
    split at h
    · cases h
    next hd =>
      cases h
      have hm : name ∈ p.segments := by
        rw [← List.mem_reverse]
        exact (back_suffix p).subset (hb ▸ .head _)
      have hd : name ≠ "." ∧ name ≠ ".." := by simpa using hd
      exact ⟨ss, hb, ⟨ne_empty_of_trimmedBack hb, hd⟩, not_mem_of_mem_segments hm⟩

theorem placeOf_parent (h : p.fileName? = some name) :
    ∃ parent, p.parent? = some parent ∧ ∀ fs, placeOf fs p = placeOf fs parent ++ [name] := by
  obtain ⟨ss, hb, hn, -⟩ := fileName?_cases h
  refine ⟨Path.ofSegments p.isAbsolute (Path.trimmedBack p.isAbsolute ss).reverse, ?_, fun fs => ?_⟩
  · rw [Path.parent?, hb]
  · have hs : ∀ s ∈ (Path.trimmedBack p.isAbsolute ss).reverse, '/' ∉ s.toList :=
      fun s hm => (backward_parent hb).noSlash s (List.mem_reverse.mp hm)
    rw [placeOf_eq fs (Path.ofSegments ..), pieces_ofSegments _ hs, foldl_trimmedBack, startOf,
      isAbsolute_ofSegments hs fun ha => head_ne_empty ha hb]
    calc placeOf fs p
        = p.back.reverse.foldl advance (startOf fs p) := by
          rw [Path.back, foldl_trimmedBack, List.reverse_reverse, placeOf]
      _ = ss.reverse.foldl advance (startOf fs p) ++ [name] := by
          rw [hb, List.reverse_cons, List.foldl_append]
          exact advance_proper hn _

/-! ### Chains of parents -/

def IsParent (p q : Path) : Prop :=
  p.parent? = some q

lemma segments_ofSegments (hs : ∀ s ∈ ss, '/' ∉ s.toList) (hn : ss ≠ [])
    (hh : absolute = false → ss.head? ≠ some "") :
    (Path.ofSegments absolute ss).segments = ss := by
  rw [Path.segments, isAbsolute_ofSegments hs hh]
  cases absolute with
  | false => simpa [Path.ofSegments] using pieces_intercalate slash_toList hs hn
  | true =>
    have ha := pieces_append slash_toList "" ("/".intercalate ss)
    rw [String.empty_append, pieces_intercalate slash_toList hs hn] at ha
    rw [if_pos rfl, Path.ofSegments, if_pos rfl, ha]
    rfl

lemma Backward.suffix {ss' : List String} (h : Backward absolute ss) (hs : ss' <:+ ss) :
    Backward absolute ss' := by
  refine ⟨fun s hm => h.noSlash s (hs.subset hm), fun ha hl => h.first ha ?_⟩
  obtain ⟨front, rfl⟩ := hs
  rw [List.getLast?_append, hl]
  rfl

lemma trimmedBack_trimmedBack (absolute : Bool) (ss : List String) :
    Path.trimmedBack absolute (Path.trimmedBack absolute ss) = Path.trimmedBack absolute ss := by
  induction ss with
  | nil => rfl
  | cons s ss ih =>
    by_cases h : Path.isIdle (!absolute && ss.isEmpty) s = true
    · rw [Path.trimmedBack, if_pos h, ih]
    · rw [Path.trimmedBack, if_neg h, Path.trimmedBack, if_neg h]

lemma back_ofSegments (h : Backward absolute ss) (hn : ss ≠ []) :
    (Path.ofSegments absolute ss.reverse).isAbsolute = absolute ∧
      (Path.ofSegments absolute ss.reverse).back = Path.trimmedBack absolute ss := by
  have hs : ∀ s ∈ ss.reverse, '/' ∉ s.toList := fun s hm => h.noSlash s (List.mem_reverse.mp hm)
  have hh : absolute = false → ss.reverse.head? ≠ some "" := by
    rw [List.head?_reverse]
    exact h.first
  have ha := isAbsolute_ofSegments hs hh
  refine ⟨ha, ?_⟩
  rw [Path.back, ha, segments_ofSegments hs (by simpa using hn) hh, List.reverse_reverse]

lemma go_parents (h : Backward p.isAbsolute ss) {q : Path} (hq : q ∈ Path.ancestors.go p ss) :
    Relation.ReflTransGen IsParent
      (Path.ofSegments p.isAbsolute (Path.trimmedBack p.isAbsolute ss).reverse) q := by
  induction ss with
  | nil => cases hq
  | cons s ss ih =>
    rw [Path.ancestors.go] at hq
    rw [Path.trimmedBack]
    have hss : Backward p.isAbsolute ss := h.suffix (List.suffix_cons s ss)
    split at hq
    next hi =>
      rw [if_pos hi]
      exact ih hss hq
    next hi =>
      rw [if_neg hi]
      rcases List.mem_cons.mp hq with rfl | hq
      · exact .refl
      · refine .head ?_ (ih hss hq)
        obtain ⟨ha, hb⟩ := back_ofSegments h (List.cons_ne_nil s ss)
        rw [Path.trimmedBack, if_neg hi] at hb
        rw [IsParent, Path.parent?, hb, ha]

theorem ancestors_parents {q : Path} (hq : q ∈ (p.parent?.getD ⟨""⟩).ancestors) :
    Relation.TransGen IsParent p q := by
  cases hp : p.parent? with
  | none =>
    rw [hp] at hq
    cases hq
  | some parent =>
    rw [hp, Option.getD_some] at hq
    refine .head' hp ?_
    rw [Path.parent?] at hp
    split at hp
    · cases hp
    next s ss hb =>
      have hbk := backward_parent hb
      have ht := trimmedBack_trimmedBack p.isAbsolute ss
      cases hp
      by_cases hn : Path.trimmedBack p.isAbsolute ss = []
      · have he : ∀ absolute, (Path.ofSegments absolute []).ancestors = [] := by
          rintro (_ | _) <;> rfl
        rw [hn, List.reverse_nil, he] at hq
        cases hq
      · obtain ⟨ha, hb⟩ := back_ofSegments hbk hn
        rw [Path.ancestors, hb, ht] at hq
        have hg := go_parents (by rw [ha]; exact hbk) hq
        rwa [ha, ht] at hg

/-! ### Files -/

theorem fileName?_of_file {t : Trail} {content : ByteArray} (h : fs.resolve p = .ok t)
    (hf : fs.reached t = .file content) : ∃ name, p.fileName? = some name := by
  obtain ⟨t₀, h₀, h⟩ := ok_of_bind h
  obtain ⟨ss, s, hs⟩ := (List.eq_nil_or_concat p.segments).resolve_left (segments_ne_nil p)
  rw [List.concat_eq_append] at hs
  rw [hs, List.foldlM_append] at h
  obtain ⟨u, hu, h⟩ := ok_of_bind h
  obtain ⟨t', ht, h⟩ := ok_of_bind (List.foldlM_cons.symm.trans h)
  cases h
  have hsu := (foldlM_enter (start_spec h₀).1 hu).1
  -- All segments but names lead to directories.
  obtain ⟨hd, ⟨-, rfl⟩ | ⟨-, rfl⟩ | ⟨n, ⟨s₀, s₁, s₂⟩, -⟩⟩ := enter_cases ht
  · rw [hf] at hd
    cases hd
  · have hd := hsu.tail_isDirectory hd
    rw [hf] at hd
    cases hd
  · refine ⟨s, ?_⟩
    have hi : ∀ b, ¬ Path.isIdle b s = true := fun b => by simp [Path.isIdle, s₀, s₁]
    rw [Path.fileName?, Path.back, hs, List.reverse_append, List.reverse_singleton,
      List.singleton_append, Path.trimmedBack, if_neg (hi _)]
    exact if_neg (by simp [s₁, s₂])

end TuiMarkup.Proofs.PathSegments
