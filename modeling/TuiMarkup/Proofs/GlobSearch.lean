import Mathlib.Data.String.Basic
import Mathlib.Tactic.Lemma
import TuiMarkup.Files.Glob
import TuiMarkup.Proofs.PathSpelling

/-!
Searches that follow names and then look at any depth. The path of a search is spelled anew on the
way, so what carries over from the path that was asked for is where it leads and how long it can be.
-/

namespace TuiMarkup.Proofs.GlobSearch

open Places PathSegments PathSpelling Splitting Glob

variable {fs : FileSystem} {p q w : Path} {t t' : Trail} {s rest : String} {u : List Char}
  {ss rs names : List String} {cs : List Component} {n m : Node}

/-! ### Texts -/

structure Fits (p : Path) : Prop where
  noNul : '\x00' ∉ p.text.toList
  nonempty : p.text ≠ ""
  short : p.text.utf8ByteSize ≤ FileSystem.pathLimit

lemma Fits.start (h : Fits p) (fs : FileSystem) :
    fs.start p = if p.isAbsolute then .ok [] else fs.working.foldlM fs.enter [] := by
  have hc : ¬ Text.hasChar '\x00' p.text = true := by
    simpa [Text.hasChar] using h.noNul
  rw [FileSystem.start, if_neg hc, if_neg h.nonempty, if_neg (Nat.not_lt.mpr h.short)]

lemma Fits.of_start (h : fs.start p = .ok t) : Fits p := by
  rw [FileSystem.start] at h
  split at h
  · cases h
  next hc =>
    split at h
    · cases h
    next he =>
      split at h
      · cases h
      next hl => exact ⟨by simpa [Text.hasChar] using hc, he, Nat.not_lt.mp hl⟩

lemma Fits.of_resolve (h : fs.resolve p = .ok t) : Fits p := by
  obtain ⟨t₀, h₀, -⟩ := ok_of_bind h
  exact .of_start h₀

lemma Fits.sublist (h : Fits w) (hs : p.text.toList.Sublist w.text.toList) (hp : p.text ≠ "") :
    Fits p := by
  refine ⟨fun hc => h.noNul (hs.subset hc), hp, le_trans ?_ h.short⟩
  rw [← String.ofList_toList (s := p.text), ← String.ofList_toList (s := w.text),
    String.utf8ByteSize_ofList, String.utf8ByteSize_ofList]
  exact String.utf8Len_le_of_sublist hs

lemma fits_here : Fits ⟨"."⟩ :=
  ⟨by decide, by decide, by decide⟩

lemma exists_of_fileExists (h : fs.fileExists p = true) : ∃ t, fs.resolve p = .ok t := by
  rw [FileSystem.fileExists, FileSystem.find?] at h
  cases hr : fs.resolve p with
  | error e =>
    rw [hr] at h
    cases h
  | ok t => exact ⟨t, rfl⟩

lemma exists_of_isFile (h : fs.isFile p = true) : ∃ t, fs.resolve p = .ok t := by
  apply exists_of_fileExists
  rw [FileSystem.fileExists]
  cases hf : fs.find? p with
  | none =>
    rw [FileSystem.isFile, hf] at h
    cases h
  | some n => rfl

lemma isDirectory_of_resolve (h : fs.resolve p = .ok t) :
    fs.isDirectory p = (fs.reached t).isDirectory := by
  rw [FileSystem.isDirectory, FileSystem.find?, h]
  rfl

lemma isFile_of_resolve (h : fs.resolve p = .ok t) :
    fs.isFile p = !(fs.reached t).isDirectory := by
  rw [FileSystem.isFile, FileSystem.find?, h]
  rfl

/-! ### Joined paths -/

lemma getLast?_pieces (h : (Text.pieces '/' rest).getLast? = some "") :
    rest = "" ∨ Text.endsWith "/" rest = true := by
  by_cases hm : '/' ∈ rest.toList
  · obtain ⟨a, b, hab, hb⟩ : ∃ a b, rest = a ++ "/" ++ b ∧ '/' ∉ b.toList := by
      obtain ⟨xs, ys, hs, hy⟩ := List.eq_append_cons_of_mem (List.mem_reverse.mpr hm)
      refine ⟨String.ofList ys.reverse, String.ofList xs.reverse, ?_, by simpa using hy⟩
      rw [← String.toList_inj, toList_around slash_toList, String.toList_ofList,
        String.toList_ofList, ← List.reverse_reverse rest.toList, hs]
      simp
    rw [hab, pieces_append slash_toList, pieces_of_not_mem hb, List.getLast?_concat] at h
    refine .inr ?_
    rw [Text.endsWith, Option.isSome_iff_exists]
    refine ⟨a, beforeEnd?_eq_some.mpr ?_⟩
    rw [hab, Option.some.inj h, String.append_empty]
  · rw [pieces_of_not_mem hm] at h
    exact .inl (Option.some.inj h)

lemma segments_eq_drop (p : Path) :
    p.segments = (Text.pieces '/' p.text).drop (if p.isAbsolute then 1 else 0) := by
  rw [Path.segments]
  split
  · rw [List.drop_one]
  · rw [List.drop_zero]

lemma dropTerminator_concat (ss : List String) : dropTerminator (ss ++ [""]) = ss := by
  rw [dropTerminator, if_pos List.getLast?_concat, List.dropLast_concat]

lemma segments_join (hp : p.text ≠ "") (hq : Path.isAbsolute ⟨rest⟩ = false) :
    (p.join rest).segments = dropTerminator p.segments ++ Text.pieces '/' rest := by
  obtain ⟨b, hb, hj⟩ := join_cases hp
  have hd : ∀ ss, (Text.pieces '/' b ++ ss).drop (if p.isAbsolute then 1 else 0) =
      (Text.pieces '/' b).drop (if p.isAbsolute then 1 else 0) ++ ss := by
    intro ss
    apply List.drop_append_of_le_length
    have hl := List.length_pos_of_ne_nil (pieces_ne_nil '/' b)
    split <;> omega
  rw [segments_eq_drop (p.join rest), isAbsolute_join hp hq, hj rest hq, pieces_append slash_toList,
    hd]
  rcases hb with ⟨hb, he⟩ | hb
  · have hl : p.segments.getLast? ≠ some "" := by
      intro hl
      rw [segments_eq_drop, List.getLast?_drop] at hl
      generalize (if p.isAbsolute then 1 else 0) = k at hl
      split at hl
      · cases hl
      · rcases getLast?_pieces hl with h | h
        · exact hp h
        · rw [he] at h
          cases h
    rw [dropTerminator, if_neg hl, segments_eq_drop, hb]
  · have hs : p.segments = (Text.pieces '/' b).drop (if p.isAbsolute then 1 else 0) ++ [""] := by
      have hp := pieces_append slash_toList b ""
      rw [String.append_empty, ← hb] at hp
      rw [segments_eq_drop, hp]
      exact hd [""]
    rw [hs, dropTerminator_concat]

lemma foldlM_dropTerminator {t₀ : Trail} (h : ss.foldlM fs.enter t₀ = .ok t) :
    (dropTerminator ss).foldlM fs.enter t₀ = .ok t := by
  rw [dropTerminator]
  split
  next hl =>
    obtain ⟨front, rfl⟩ := List.getLast?_eq_some_iff.mp hl
    rw [List.foldlM_append] at h
    obtain ⟨t₁, h₁, h⟩ := ok_of_bind h
    obtain ⟨t₂, h₂, h⟩ := ok_of_bind (List.foldlM_cons.symm.trans h)
    cases h
    rw [List.dropLast_concat, h₁]
    obtain ⟨-, ⟨-, rfl⟩ | ⟨hu, -⟩ | ⟨-, hn, -⟩⟩ := enter_cases h₂
    · rfl
    · exact absurd hu (by decide)
    · exact absurd rfl hn.1
  · exact h

theorem resolve_join (hr : fs.resolve p = .ok t) (hq : Path.isAbsolute ⟨rest⟩ = false)
    (hf : Fits (p.join rest)) :
    fs.resolve (p.join rest) = (Text.pieces '/' rest).foldlM fs.enter t := by
  have hp := (Fits.of_resolve hr).nonempty
  obtain ⟨t₀, h₀, h⟩ := ok_of_bind hr
  rw [FileSystem.resolve, hf.start fs, isAbsolute_join hp hq, ← (Fits.of_resolve hr).start fs, h₀,
    segments_join hp hq]
  change List.foldlM _ t₀ _ = _
  rw [List.foldlM_append, foldlM_dropTerminator h]
  rfl

/-! ### Steps of a search -/

def Off (p : Path) : Prop :=
  p.isAbsolute = true ∨ p.segments.head? ≠ some "."

lemma Off.child (h : Off p) (hp : p.text ≠ "") (rest : String) : child p rest = p.join rest := by
  rw [Glob.child, if_neg]
  intro hs
  obtain ⟨ha, hh⟩ := starts_here hs hp
  rcases h with h | h
  · rw [ha] at h
    cases h
  · exact h hh

lemma child_here (rest : String) : child ⟨"."⟩ rest = ⟨rest⟩ :=
  if_pos rfl

lemma Off.join (h : Off p) (hp : p.text ≠ "") (hs : '/' ∉ s.toList) : Off (p.join s) := by
  have hr := isAbsolute_of_not_mem hs
  rcases h with h | h
  · refine .inl ?_
    rw [isAbsolute_join hp hr, h]
  · cases ha : p.isAbsolute with
    | true =>
      refine .inl ?_
      rw [isAbsolute_join hp hr, ha]
    | false =>
      refine .inr ?_
      obtain ⟨x, xs, hx⟩ := List.exists_cons_of_ne_nil (segments_ne_nil p)
      have hne : x ≠ "" := by
        rintro rfl
        exact hp (text_eq_empty ha (by rw [hx]; rfl))
      rw [hx] at h
      rw [segments_join hp hr, hx, dropTerminator]
      split
      next hl =>
        cases xs with
        | nil => exact absurd (Option.some.inj hl) hne
        | cons y ys => exact h
      · exact h

lemma off_of_ne (hs : '/' ∉ s.toList) (hd : s ≠ ".") : Off ⟨s⟩ := by
  refine .inr ?_
  rw [Path.segments, isAbsolute_of_not_mem hs, if_neg Bool.false_ne_true, pieces_of_not_mem hs]
  simpa using hd

theorem placeOf_child (fs : FileSystem) (p : Path) (hq : Path.isAbsolute ⟨rest⟩ = false) :
    placeOf fs (child p rest) = (Text.pieces '/' rest).foldl advance (placeOf fs p) := by
  rw [Glob.child]
  split
  next hs =>
    rw [placeOf_same hs, placeOf_eq, startOf, hq]
    rfl
  · exact placeOf_join_relative fs p hq

/-- A search stands where a trail leads, on a path whose text was taken from the characters `u`. -/
structure Standing (fs : FileSystem) (u : List Char) (t : Trail) (p : Path) : Prop where
  resolved : fs.resolve p = .ok t
  spelled : p = ⟨"."⟩ ∨ Off p ∧ (p.join "").text.toList.Sublist u

lemma join_empty_sublist (p : Path) : (p.join "").text.toList.Sublist (p.text.toList ++ ['/']) := by
  have hs : Text.startsWith "/" "" = false := rfl
  rw [Path.join, hs, if_neg Bool.false_ne_true]
  split
  · simp
  · simp

lemma join_text (p : Path) (hq : Path.isAbsolute ⟨rest⟩ = false) :
    (p.join rest).text = (p.join "").text ++ rest := by
  have hs : Text.startsWith "/" "" = false := rfl
  have hq : Text.startsWith "/" rest = false := hq
  rw [Path.join, Path.join, hs, hq, if_neg Bool.false_ne_true]
  split <;> simp

lemma resolve_here (h : fs.resolve ⟨"."⟩ = .ok t) : fs.working.foldlM fs.enter [] = .ok t := by
  obtain ⟨t₀, h₀, h⟩ := ok_of_bind h
  obtain ⟨t₁, h₁, h⟩ := ok_of_bind (List.foldlM_cons.symm.trans h)
  cases h
  rw [fits_here.start fs] at h₀
  obtain ⟨-, ⟨-, rfl⟩ | ⟨hu, -⟩ | ⟨-, hn, -⟩⟩ := enter_cases h₁
  · exact h₀
  · exact absurd hu (by decide)
  · exact absurd rfl hn.2.1

lemma Standing.child_sublist (h : Standing fs u t p) (hq : Path.isAbsolute ⟨rest⟩ = false) :
    (child p rest).text.toList.Sublist (u ++ rest.toList) := by
  rcases h.spelled with rfl | ⟨ho, hu⟩
  · rw [child_here]
    exact List.sublist_append_right u rest.toList
  · rw [ho.child (Fits.of_resolve h.resolved).nonempty, join_text p hq, String.toList_append]
    exact hu.append (List.Sublist.refl _)

lemma Standing.fits (h : Standing fs u t p) (hq : Path.isAbsolute ⟨rest⟩ = false)
    (hn : p = ⟨"."⟩ → rest ≠ "") (hw : Fits w)
    (hu : (u ++ rest.toList).Sublist w.text.toList) : Fits (child p rest) := by
  refine hw.sublist ((h.child_sublist hq).trans hu) ?_
  rcases h.spelled with rfl | ⟨ho, -⟩
  · rw [child_here]
    exact hn rfl
  · have hp := (Fits.of_resolve h.resolved).nonempty
    rw [ho.child hp]
    obtain ⟨b, -, hj⟩ := join_cases hp
    rw [hj rest hq]
    intro he
    simp at he

lemma Standing.resolve (h : Standing fs u t p) (hq : Path.isAbsolute ⟨rest⟩ = false)
    (hf : Fits (child p rest)) :
    fs.resolve (child p rest) = (Text.pieces '/' rest).foldlM fs.enter t := by
  rcases h.spelled with rfl | ⟨ho, -⟩
  · rw [child_here] at hf ⊢
    rw [FileSystem.resolve, hf.start fs, Path.segments, hq, if_neg Bool.false_ne_true,
      resolve_here h.resolved]
    rfl
  · rw [ho.child (Fits.of_resolve h.resolved).nonempty] at hf ⊢
    exact resolve_join h.resolved hq hf

/-! ### Names to follow -/

def literal (s : String) : Component :=
  .marks (s.toList.map .char)

lemma mapM_char {f : Mark → Option Char} (h : ∀ c, f (.char c) = some c) (cs : List Char) :
    (cs.map Mark.char).mapM f = some cs := by
  induction cs with
  | nil => rfl
  | cons c cs ih =>
    rw [List.map_cons, List.mapM_cons, ih, h]
    rfl

lemma literal?_literal (s : String) : (literal s).literal? = some s := by
  rw [literal, Component.literal?, mapM_char fun c => rfl, Option.map_some, String.ofList_toList]

def follows (fs : FileSystem) (p : Path) (s : String) : Bool :=
  if s = "." || s = ".." then fs.isDirectory p else fs.fileExists (child p s)

lemma expand_literal (fs : FileSystem) (p : Path) (s : String) (cs : List Component) :
    expand fs p (literal s :: cs) = if follows fs p s then expand fs (child p s) cs else [] := by
  rw [expand, literal?_literal]
  rfl

lemma Standing.step (h : Standing fs u t p) (hs : '/' ∉ s.toList) (he : fs.enter t s = .ok t')
    (hn : p = ⟨"."⟩ → s ≠ "") (hw : Fits w) (hu : (u ++ s.toList).Sublist w.text.toList) :
    Standing fs (u ++ s.toList ++ ['/']) t' (child p s) ∧
      ∀ cs, expand fs p (literal s :: cs) = expand fs (child p s) cs := by
  have ha := isAbsolute_of_not_mem hs
  have hr : fs.resolve (child p s) = .ok t' := by
    rw [h.resolve ha (h.fits ha hn hw hu), pieces_of_not_mem hs, List.foldlM_cons, he]
    rfl
  have hj : ((child p s).join "").text.toList.Sublist (u ++ s.toList ++ ['/']) :=
    (join_empty_sublist _).trans ((h.child_sublist ha).append (List.Sublist.refl _))
  refine ⟨⟨hr, ?_⟩, fun cs => ?_⟩
  · rcases h.spelled with rfl | ⟨ho, -⟩
    · by_cases hd : s = "."
      · subst hd
        exact .inl rfl
      · refine .inr ⟨?_, hj⟩
        rw [child_here]
        exact off_of_ne hs hd
    · have hp := (Fits.of_resolve h.resolved).nonempty
      refine .inr ⟨?_, hj⟩
      rw [ho.child hp]
      exact ho.join hp hs
  · rw [expand_literal, if_pos]
    rw [follows]
    split
    · obtain ⟨hd, -⟩ := enter_cases he
      rw [isDirectory_of_resolve h.resolved]
      exact hd
    · rw [FileSystem.fileExists, FileSystem.find?, hr]
      rfl

def slashed (ss : List String) : List Char :=
  ss.flatMap fun s => s.toList ++ ['/']

lemma toList_intercalate_append (hr : rs ≠ []) (ss : List String) :
    ("/".intercalate (ss ++ rs)).toList = slashed ss ++ ("/".intercalate rs).toList := by
  induction ss with
  | nil => rfl
  | cons s ss ih =>
    have hn : ss ++ rs ≠ [] := List.append_ne_nil_of_right_ne_nil ss hr
    rw [List.cons_append, String.intercalate_cons_of_ne_nil hn, String.toList_append, ih]
    simp [slashed]

def lead (p : Path) : List Char :=
  if p.isAbsolute then ['/'] else []

lemma toList_of_segments (h : p.segments = ss ++ rs) (hr : rs ≠ []) :
    p.text.toList = lead p ++ slashed ss ++ ("/".intercalate rs).toList := by
  have hl := intercalate_pieces slash_toList p.text
  rw [Path.segments] at h
  rw [lead]
  split at h
  next ha =>
    obtain ⟨cs, hcs⟩ := pieces_of_isAbsolute ha
    rw [hcs, List.tail_cons] at h
    rw [hcs, h] at hl
    rw [← hl, ← List.cons_append, toList_intercalate_append hr, if_pos ha]
    simp [slashed]
  next ha =>
    rw [h] at hl
    rw [← hl, toList_intercalate_append hr, if_neg ha]
    rfl

lemma not_off_here : ¬ Off ⟨"."⟩ := by
  rw [Off]
  decide

/-- Names are followed to where they lead. Only from the working directory an empty one is not. -/
theorem Standing.run (h : Standing fs u t p) (hs : ∀ s ∈ ss, '/' ∉ s.toList)
    (he : ss.foldlM fs.enter t = .ok t')
    (hn : p = ⟨"."⟩ → (ss.dropWhile (· = ".")).head? ≠ some "") (hw : Fits w)
    (hu : (u ++ slashed ss).Sublist w.text.toList) :
    ∃ p', Standing fs (u ++ slashed ss) t' p' ∧
      ∀ cs, expand fs p (ss.map literal ++ cs) = expand fs p' cs := by
  induction ss generalizing p t u with
  | nil =>
    cases he
    refine ⟨p, ?_, fun cs => rfl⟩
    rw [slashed, List.flatMap_nil, List.append_nil]
    exact h
  | cons s ss ih =>
    obtain ⟨hs₁, hss⟩ := List.forall_mem_cons.mp hs
    obtain ⟨t₁, h₁, he⟩ := ok_of_bind (List.foldlM_cons.symm.trans he)
    have hl : u ++ slashed (s :: ss) = u ++ s.toList ++ ['/'] ++ slashed ss := by
      simp [slashed]
    rw [hl] at hu ⊢
    have hne : p = ⟨"."⟩ → s ≠ "" := by
      rintro hp rfl
      exact hn hp rfl
    obtain ⟨h', hx⟩ := h.step hs₁ h₁ hne hw (List.Sublist.trans (by simp) hu)
    -- The search can be at `.` again only if it was there before and `s` is idle.
    have hn' : child p s = ⟨"."⟩ → (ss.dropWhile (· = ".")).head? ≠ some "" := by
      intro hc
      rcases h.spelled with hp | ⟨ho, -⟩
      · subst hp
        rw [child_here] at hc
        cases hc
        exact hn rfl
      · have hp := (Fits.of_resolve h.resolved).nonempty
        rw [ho.child hp] at hc
        exact absurd (hc ▸ ho.join hp hs₁) not_off_here
    obtain ⟨p', hp', hx'⟩ := ih h' hss he hn' hu
    refine ⟨p', hp', fun cs => ?_⟩
    rw [List.map_cons, List.cons_append, hx, hx']

lemma expand_unfollowed (fs : FileSystem) (cs : List Component)
    (h : (ss.dropWhile (· = ".")).head? = some "") :
    expand fs ⟨"."⟩ (ss.map literal ++ cs) = [] := by
  induction ss with
  | nil => cases h
  | cons s ss ih =>
    rw [List.map_cons, List.cons_append, expand_literal, child_here]
    by_cases hd : s = "."
    · subst hd
      split
      · exact ih h
      · rfl
    · rw [List.dropWhile_cons_of_neg (by simpa using hd)] at h
      cases h
      exact if_neg Bool.false_ne_true

lemma mem_expand_literals (hs : ∀ s ∈ ss, '/' ∉ s.toList)
    (h : q ∈ expand fs p (ss.map literal ++ cs)) :
    ∃ p', placeOf fs p' = ss.foldl advance (placeOf fs p) ∧ q ∈ expand fs p' cs := by
  induction ss generalizing p with
  | nil => exact ⟨p, rfl, h⟩
  | cons s ss ih =>
    obtain ⟨hs₁, hss⟩ := List.forall_mem_cons.mp hs
    rw [List.map_cons, List.cons_append, expand_literal] at h
    have hq : q ∈ expand fs (child p s) (ss.map literal ++ cs) := by
      split at h
      · exact h
      · cases h
    obtain ⟨p', hp', h⟩ := ih hss hq
    refine ⟨p', ?_, h⟩
    rw [hp', placeOf_child fs p (isAbsolute_of_not_mem hs₁), pieces_of_not_mem hs₁]
    rfl

/-! ### Nodes at any depth -/

lemma mem_entryNodes {es : List (String × Node)} : (names, m) ∈ Node.entryNodes es ↔
    ∃ name o rest, names = name :: rest ∧ (name, o) ∈ es ∧
      (rest = [] ∧ m = o ∨ (rest, m) ∈ o.nodes) := by
  induction es with
  | nil => simp [Node.entryNodes]
  | cons e es ih =>
    obtain ⟨key, k⟩ := e
    rw [Node.entryNodes, List.cons_append, List.mem_cons, List.mem_append, List.mem_map, ih]
    constructor
    · rintro (he | ⟨⟨rest, o⟩, ho, he⟩ | ⟨name, o, rest, hn, ho, hm⟩)
      · cases he
        exact ⟨key, m, [], rfl, .head _, .inl ⟨rfl, rfl⟩⟩
      · cases he
        exact ⟨key, k, rest, rfl, .head _, .inr ho⟩
      · exact ⟨name, o, rest, hn, .tail _ ho, hm⟩
    · rintro ⟨name, o, rest, rfl, ho, hm⟩
      rcases List.mem_cons.mp ho with ho | ho
      · cases ho
        rcases hm with ⟨rfl, rfl⟩ | hm
        · exact .inl rfl
        · exact .inr (.inl ⟨(rest, m), hm, rfl⟩)
      · exact .inr (.inr ⟨name, o, rest, rfl, ho, hm⟩)

lemma mem_nodes : (names, m) ∈ n.nodes ↔ ∃ name o rest, names = name :: rest ∧
    (name, o) ∈ n.entries ∧ (rest = [] ∧ m = o ∨ (rest, m) ∈ o.nodes) := by
  cases n with
  | file content => simp [Node.nodes, Node.entries]
  | directory es =>
    rw [Node.nodes, mem_entryNodes]
    rfl

lemma ne_nil_of_mem_nodes (h : (names, m) ∈ n.nodes) : names ≠ [] := by
  obtain ⟨name, _, rest, rfl, _⟩ := mem_nodes.mp h
  exact List.cons_ne_nil name rest

lemma mem_nodes_of_get? (h : n.get? names = some m) (hn : names ≠ []) : (names, m) ∈ n.nodes := by
  induction names generalizing n with
  | nil => exact absurd rfl hn
  | cons name names ih =>
    obtain ⟨o, ho, h⟩ := Option.bind_eq_some_iff.mp h
    obtain ⟨before, after, hl, -⟩ := List.lookup_eq_some_iff.mp ho
    refine mem_nodes.mpr ⟨name, o, names, rfl, by simp [hl], ?_⟩
    cases names with
    | nil =>
      cases h
      exact .inl ⟨rfl, rfl⟩
    | cons x xs => exact .inr (ih h (List.cons_ne_nil x xs))

lemma nodes_trans {names' : List String} {k : Node} (h : (names, m) ∈ n.nodes)
    (h' : (names', k) ∈ m.nodes) : (names ++ names', k) ∈ n.nodes := by
  induction names generalizing n with
  | nil => exact absurd rfl (ne_nil_of_mem_nodes h)
  | cons x xs ih =>
    obtain ⟨_, o, _, hn, ho, hm⟩ := mem_nodes.mp h
    cases hn
    refine mem_nodes.mpr ⟨x, o, xs ++ names', rfl, ho, .inr ?_⟩
    rcases hm with ⟨rfl, rfl⟩ | hm
    · exact h'
    · exact ih hm

lemma foldl_advance (h : ∀ name ∈ names, Proper name) (place : List String) :
    names.foldl advance place = place ++ names := by
  induction names generalizing place with
  | nil => rw [List.foldl_nil, List.append_nil]
  | cons name names ih =>
    obtain ⟨hn, hns⟩ := List.forall_mem_cons.mp h
    rw [List.foldl_cons, advance_proper hn, ih hns, List.append_assoc]
    rfl

lemma mem_nodes_of_enter (hs : Sound fs t) (hn : names ≠ []) (hp : ∀ name ∈ names, Proper name)
    (h : names.foldlM fs.enter t = .ok t') : (names, fs.reached t') ∈ (fs.reached t).nodes := by
  obtain ⟨hs', ht⟩ := foldlM_enter hs h
  have hg := hs'.node
  rw [ht, foldl_advance hp, FileSystem.node?, get?_append, ← FileSystem.node?, hs.node] at hg
  exact mem_nodes_of_get? hg hn

lemma mem_pathsUnder {f : Found} : f ∈ pathsUnder fs p ↔
    ∃ t, fs.resolve p = .ok t ∧ ∃ names m, (names, m) ∈ (fs.reached t).nodes ∧
      f = ⟨child p ("/".intercalate names), names.getLast?.getD "", m⟩ := by
  rw [pathsUnder, FileSystem.find?]
  cases fs.resolve p with
  | error e => simp
  | ok t => simp [eq_comm]

lemma expand_deep (fs : FileSystem) (p : Path) (ms : List Mark) :
    expand fs p [.anyDepth, .marks ms] =
      if fs.isDirectory p then
        ((pathsUnder fs p).filter fun f => admitsChars ms f.name.toList).map (·.path)
      else [] := by
  rw [expand, Component.literal?]
  dsimp only
  cases hd : fs.isDirectory p with
  | false => rfl
  | true =>
    have he : ∀ f : Found, expand fs f.path [] = [f.path] := fun f => by rw [expand]
    change List.flatMap (fun f : Found => expand fs f.path []) _ = _
    simp only [he, if_true, List.map_eq_flatMap]
    rfl

/-! ### Wildcards -/

lemma mem_ends {cs ds : List Char} : ds ∈ ends cs ↔ ds <:+ cs := by
  induction cs with
  | nil => simp [ends]
  | cons c cs ih => rw [ends, List.mem_cons, ih, List.suffix_cons_iff]

lemma matchesChars_char (cs ds : List Char) :
    matchesChars (cs.map .char) ds = true ↔ ds = cs := by
  induction cs generalizing ds with
  | nil => simp [matchesChars]
  | cons c cs ih =>
    cases ds with
    | nil => simp [matchesChars]
    | cons d ds => simp [matchesChars, Mark.holds, ih]

lemma admitsChars_star (ending name : String) :
    admitsChars (.anyChars :: ending.toList.map .char) name.toList = true ↔
      Text.endsWith ending name = true := by
  rw [admitsChars_eq, matchesChars, List.any_eq_true]
  simp only [matchesChars_char, mem_ends, exists_eq_right]
  rw [Text.endsWith, Option.isSome_iff_exists]
  simp only [beforeEnd?_eq_some]
  constructor
  · rintro ⟨cs, hc⟩
    refine ⟨String.ofList cs, ?_⟩
    rw [← String.toList_inj, String.toList_append, String.toList_ofList, hc]
  · rintro ⟨q, rfl⟩
    exact ⟨q.toList, String.toList_append.symm⟩

end TuiMarkup.Proofs.GlobSearch
