import Mathlib.Tactic.Lemma
import TuiMarkup.Command.Configuration
import TuiMarkup.Proofs.GlobSearch

/-!
The documents that a directory on the command line stands for. The directory is put in front of the
pattern as it is spelled, so the search keeps to the directory only if its spelling has no wildcards.
No link leads into a directory or out of it, and all names are Unicode texts.
-/

namespace TuiMarkup.Proofs.Discovery

open Places PathSegments PathSpelling GlobSearch Splitting Glob

variable {fs : FileSystem} {p q : Path} {t t' : Trail} {s : String} {ss names : List String}

/-! ### Patterns -/

def ending : String := ".tui.xaml"

def IsPlain (c : Char) : Prop :=
  c ≠ '*' ∧ c ≠ '?' ∧ c ≠ '['

instance (c : Char) : Decidable (IsPlain c) :=
  inferInstanceAs (Decidable (_ ∧ _ ∧ _))

lemma readMarks?_plain {cs : List Char} (h : ∀ c ∈ cs, IsPlain c) :
    readMarks? cs = some (cs.map .char) := by
  induction cs with
  | nil => rw [readMarks?, List.map_nil]
  | cons c cs ih =>
    obtain ⟨⟨h₁, h₂, h₃⟩, hcs⟩ := List.forall_mem_cons.mp h
    have hr : readMarks? (c :: cs) = (readMarks? cs).map (.char c :: ·) := by
      rw [readMarks?] <;> simp [h₁, h₂, h₃]
    rw [hr, ih hcs]
    rfl

lemma read?_plain (h : ∀ c ∈ s.toList, IsPlain c) : Component.read? s = some (literal s) := by
  rw [Component.read?, if_neg, readMarks?_plain h]
  · rfl
  · rintro rfl
    exact (h '*' (by decide)).1 rfl

def deep : List Component :=
  [.anyDepth, .marks (.anyChars :: ending.toList.map .char)]

lemma mapM_read? (h : ∀ s ∈ ss, ∀ c ∈ s.toList, IsPlain c) :
    (ss ++ Text.pieces '/' Project.defaultPattern).mapM Component.read? =
      some (ss.map literal ++ deep) := by
  induction ss with
  | nil => decide +kernel
  | cons s ss ih =>
    obtain ⟨hs, hss⟩ := List.forall_mem_cons.mp h
    rw [List.cons_append, List.mapM_cons, read?_plain hs, ih hss]
    rfl

lemma mem_text_of_mem_segments {c : Char} (hs : s ∈ p.segments) (hc : c ∈ s.toList)
    (h : c ≠ '/') : c ∈ p.text.toList := by
  have hs : s ∈ Text.pieces '/' p.text := by
    rw [segments_eq_drop] at hs
    exact List.mem_of_mem_drop hs
  rw [← intercalate_pieces slash_toList p.text, mem_intercalate (by simpa [slash_toList] using h)]
  exact ⟨s, hs, hc⟩

lemma mem_of_mem_dropTerminator (h : s ∈ dropTerminator ss) : s ∈ ss := by
  rw [dropTerminator] at h
  split at h
  · exact List.dropLast_subset ss h
  · exact h

lemma noSlash_dropTerminator : ∀ s ∈ dropTerminator p.segments, '/' ∉ s.toList := by
  intro s hs
  exact not_mem_of_mem_segments (mem_of_mem_dropTerminator hs)

def Literal (p : Path) : Prop :=
  ∀ c ∈ p.text.toList, IsPlain c

instance (p : Path) : Decidable (Literal p) :=
  List.decidableBAll IsPlain p.text.toList

lemma Literal.segments (h : Literal p) :
    ∀ s ∈ dropTerminator p.segments, ∀ c ∈ s.toList, IsPlain c := by
  intro s hs c hc
  apply h c
  apply mem_text_of_mem_segments (mem_of_mem_dropTerminator hs) hc
  rintro rfl
  exact noSlash_dropTerminator s hs hc

lemma pattern_relative : Path.isAbsolute ⟨Project.defaultPattern⟩ = false := by
  decide +kernel

lemma pieces_pattern :
    Text.pieces '/' Project.defaultPattern = ["**"] ++ ["*.tui.xaml"] := by
  decide +kernel

lemma endsWith_pattern (hp : p.text ≠ "") :
    Text.endsWith "/" (p.join Project.defaultPattern).text = false := by
  rw [← Bool.not_eq_true]
  intro h
  obtain ⟨a, ha⟩ := exists_of_endsWith h
  obtain ⟨b, -, hj⟩ := join_cases hp
  rw [hj _ pattern_relative] at ha
  have hl : Project.defaultPattern.toList.getLast? = some 'l' := by decide +kernel
  have hc := congrArg (fun s => s.toList.getLast?) ha
  simp only [String.toList_append, List.getLast?_append, hl, slash_toList] at hc
  have hc : some 'l' = some '/' := hc
  exact absurd hc (by decide)

lemma read?_join (hl : Literal p) (hp : p.text ≠ "") :
    Pattern.read? (p.join Project.defaultPattern).text =
      some ⟨p.isAbsolute, (dropTerminator p.segments).map literal ++ deep, false⟩ := by
  have hs : dropTerminator (p.join Project.defaultPattern).segments =
      dropTerminator p.segments ++ Text.pieces '/' Project.defaultPattern := by
    rw [segments_join hp pattern_relative, pieces_pattern, ← List.append_assoc, dropTerminator,
      if_neg]
    rw [List.getLast?_concat]
    decide
  have ha := isAbsolute_join hp pattern_relative
  rw [Path.isAbsolute] at ha
  rw [Pattern.read?, hs, mapM_read? hl.segments, ha, endsWith_pattern hp]
  rfl

def origin (p : Path) : Path :=
  if p.isAbsolute then ⟨"/"⟩ else ⟨"."⟩

theorem discover_eq (fs : FileSystem) (hl : Literal p) (hp : p.text ≠ "") :
    fs.discover p [Project.defaultPattern] =
      (expand fs (origin p)
        ((dropTerminator p.segments).map literal ++ deep)).filter fs.isFile := by
  rw [FileSystem.discover, List.flatMap_cons, read?_join hl hp, List.flatMap_nil, List.append_nil]
  rfl

/-! ### Places -/

lemma placeOf_origin (fs : FileSystem) (p : Path) : placeOf fs (origin p) = startOf fs p := by
  rw [origin, startOf]
  split
  · rfl
  · rfl

lemma foldl_dropTerminator (place ss : List String) :
    (dropTerminator ss).foldl advance place = ss.foldl advance place := by
  rw [dropTerminator]
  split
  next h =>
    obtain ⟨front, rfl⟩ := List.getLast?_eq_some_iff.mp h
    rw [List.dropLast_concat, List.foldl_append]
    rfl
  · rfl

def IsName (name : String) : Prop :=
  Proper name ∧ '/' ∉ name.toList

instance (name : String) : Decidable (IsName name) :=
  inferInstanceAs (Decidable (_ ∧ _))

def WellNamed (fs : FileSystem) : Prop :=
  ∀ e ∈ fs.root.nodes, ∀ name ∈ e.1, IsName name

instance (fs : FileSystem) : Decidable (WellNamed fs) :=
  inferInstanceAs (Decidable (∀ e ∈ fs.root.nodes, ∀ name ∈ e.1, IsName name))

lemma relative_names (h : ∀ name ∈ names, IsName name) :
    Path.isAbsolute ⟨"/".intercalate names⟩ = false := by
  have ha : (Path.ofSegments false names).isAbsolute = false := by
    apply isAbsolute_ofSegments
    · intro name hn
      exact (h name hn).2
    · intro _ hh
      exact (h "" (List.mem_of_head? hh)).1.1 rfl
  simpa [Path.ofSegments] using ha

lemma pieces_names (h : ∀ name ∈ names, IsName name) (hn : names ≠ []) :
    Text.pieces '/' ("/".intercalate names) = names :=
  pieces_intercalate slash_toList (fun name hm => (h name hm).2) hn

lemma ne_empty_of_names (h : ∀ name ∈ names, IsName name) (hn : names ≠ []) :
    "/".intercalate names ≠ "" := by
  intro he
  have hp := pieces_names h hn
  rw [he] at hp
  exact (h "" (hp ▸ .head _)).1.1 rfl

lemma WellNamed.under {m : Node} (hw : WellNamed fs) (hs : Sound fs t)
    (h : (names, m) ∈ (fs.reached t).nodes) : ∀ name ∈ names, IsName name := by
  intro name hn
  by_cases ht : t.names = []
  · have hr := hs.node
    rw [ht] at hr
    rw [← Option.some.inj hr] at h
    exact hw _ h name hn
  · have hm := nodes_trans (mem_nodes_of_get? hs.node ht) h
    exact hw _ hm name (List.mem_append_right _ hn)

/-! ### Searches -/

def IsDocument (names : List String) : Prop :=
  ∃ front name, names = front ++ [name] ∧ Text.endsWith ending name = true

lemma IsDocument.ne_nil (h : IsDocument names) : names ≠ [] := by
  obtain ⟨front, name, rfl, -⟩ := h
  exact List.append_ne_nil_of_right_ne_nil front (List.cons_ne_nil name [])

lemma isDocument_iff (hn : names ≠ []) :
    IsDocument names ↔ Text.endsWith ending (names.getLast?.getD "") = true := by
  obtain ⟨front, name, rfl⟩ := (List.eq_nil_or_concat names).resolve_left hn
  rw [List.concat_eq_append, List.getLast?_concat, Option.getD_some]
  constructor
  · rintro ⟨front', name', he, hd⟩
    obtain ⟨-, he⟩ := List.append_inj' he rfl
    cases he
    exact hd
  · intro h
    exact ⟨front, name, rfl, h⟩

lemma mem_deep : q ∈ expand fs p deep ↔ ∃ t, fs.resolve p = .ok t ∧
    (fs.reached t).isDirectory = true ∧ ∃ names m, (names, m) ∈ (fs.reached t).nodes ∧
      IsDocument names ∧ q = child p ("/".intercalate names) := by
  rw [deep, expand_deep]
  constructor
  · intro h
    split at h
    next hd =>
      obtain ⟨f, hf, rfl⟩ := List.mem_map.mp h
      obtain ⟨hf, ha⟩ := List.mem_filter.mp hf
      obtain ⟨t, ht, names, m, hm, rfl⟩ := mem_pathsUnder.mp hf
      rw [isDirectory_of_resolve ht] at hd
      refine ⟨t, ht, hd, names, m, hm, ?_, rfl⟩
      exact (isDocument_iff (ne_nil_of_mem_nodes hm)).mpr ((admitsChars_star ending _).mp ha)
    · cases h
  · rintro ⟨t, ht, hd, names, m, hm, hn, rfl⟩
    rw [if_pos (by rw [isDirectory_of_resolve ht, hd])]
    have hf := mem_pathsUnder.mpr ⟨t, ht, names, m, hm, rfl⟩
    refine List.mem_map.mpr ⟨_, List.mem_filter.mpr ⟨hf, ?_⟩, rfl⟩
    exact (admitsChars_star ending _).mpr ((isDocument_iff (ne_nil_of_mem_nodes hm)).mp hn)

theorem discover_sound (hl : Literal p) (hp : p.text ≠ "") (hw : WellNamed fs)
    (h : q ∈ fs.discover p [Project.defaultPattern]) :
    fs.isFile q = true ∧ ∃ names, IsDocument names ∧ placeOf fs q = placeOf fs p ++ names := by
  rw [discover_eq fs hl hp, List.mem_filter] at h
  obtain ⟨h, hf⟩ := h
  refine ⟨hf, ?_⟩
  obtain ⟨p', hp', h⟩ := mem_expand_literals noSlash_dropTerminator h
  obtain ⟨t, ht, -, names, m, hm, hd, rfl⟩ := mem_deep.mp h
  have hn := hw.under (resolve_spec ht).1 hm
  refine ⟨names, hd, ?_⟩
  rw [placeOf_child fs p' (relative_names hn), pieces_names hn (ne_nil_of_mem_nodes hm), hp',
    placeOf_origin, foldl_dropTerminator, foldl_advance fun name hm => (hn name hm).1]
  rfl

/-- A path that can be followed name by name: the working directory is not followed by nothing. -/
def Followed (p : Path) : Prop :=
  p.isAbsolute = true ∨ ((dropTerminator p.segments).dropWhile (· = ".")).head? ≠ some ""

instance (p : Path) : Decidable (Followed p) :=
  inferInstanceAs (Decidable (_ ∨ _))

lemma discover_unfollowed (fs : FileSystem) (hl : Literal p) (hp : p.text ≠ "")
    (h : ¬ Followed p) : fs.discover p [Project.defaultPattern] = [] := by
  obtain ⟨ha, hh⟩ := not_or.mp h
  rw [discover_eq fs hl hp, origin, if_neg ha, expand_unfollowed fs deep (not_not.mp hh)]
  rfl

lemma resolve_idle (hf : Fits p) (hi : p.segments = [s]) (hs : s = "" ∨ s = ".")
    (ht : (if p.isAbsolute then .ok [] else fs.working.foldlM fs.enter []) = Except.ok t)
    (hd : (fs.reached t).isDirectory = true) : fs.resolve p = .ok t := by
  rw [FileSystem.resolve, hf.start fs, ht, hi]
  change List.foldlM _ t _ = _
  rw [List.foldlM_cons, enter_idle hd hs]
  rfl

lemma standing_origin (hs : fs.start p = .ok t) (hd : (fs.reached t).isDirectory = true) :
    Standing fs (lead p) t (origin p) := by
  have ht := (start_eq hs fs).symm.trans hs
  rw [origin, lead]
  split
  next ha =>
    rw [if_pos ha] at ht
    have hf : Fits ⟨"/"⟩ := ⟨by decide, by decide, by decide⟩
    have hj : Path.join ⟨"/"⟩ "" = ⟨"/"⟩ := by decide +kernel
    refine ⟨resolve_idle hf rfl (.inl rfl) ht hd, .inr ⟨.inl rfl, ?_⟩⟩
    rw [hj, slash_toList]
  next ha =>
    rw [if_neg ha] at ht
    exact ⟨resolve_idle fits_here rfl (.inr rfl) ht hd, .inl rfl⟩

lemma exists_followed (hp : p.text ≠ "") (hf : Followed p) (hn : ∀ name ∈ names, IsName name)
    (hne : names ≠ []) {w : Path} (hj : p.join ("/".intercalate names) = w)
    (hw : fs.resolve w = .ok t') :
    ∃ t p', names.foldlM fs.enter t = .ok t' ∧
      Standing fs (lead w ++ slashed (dropTerminator p.segments)) t p' ∧
      w.text.toList =
        lead w ++ slashed (dropTerminator p.segments) ++ ("/".intercalate names).toList ∧
      ∀ cs, expand fs (origin p) ((dropTerminator p.segments).map literal ++ cs) =
        expand fs p' cs := by
  have hr := relative_names hn
  have hs : w.segments = dropTerminator p.segments ++ names := by
    rw [← hj, segments_join hp hr, pieces_names hn hne]
  have hu := toList_of_segments hs hne
  obtain ⟨t₀, h₀, he⟩ := ok_of_bind hw
  rw [hs] at he
  -- something is entered from where the path starts, so that is a directory
  have hd := isDirectory_of_enter he (List.append_ne_nil_of_right_ne_nil _ hne)
  have ho := standing_origin h₀ hd
  have ha : w.isAbsolute = p.isAbsolute := by rw [← hj, isAbsolute_join hp hr]
  rw [origin, ha, ← origin] at ho
  have hx : origin p = ⟨"."⟩ →
      ((dropTerminator p.segments).dropWhile (· = ".")).head? ≠ some "" := by
    intro hx
    refine hf.resolve_left fun ha => ?_
    rw [origin, if_pos ha] at hx
    exact absurd hx (by decide)
  rw [List.foldlM_append] at he
  obtain ⟨t, ht, he⟩ := ok_of_bind he
  have hsub : (lead w ++ slashed (dropTerminator p.segments)).Sublist w.text.toList := by
    rw [hu]
    exact List.sublist_append_left _ _
  obtain ⟨p', hp', hx⟩ := ho.run noSlash_dropTerminator ht hx (Fits.of_resolve hw) hsub
  exact ⟨t, p', he, hp', hu, hx⟩

theorem discover_complete (hl : Literal p) (hp : p.text ≠ "") (hf : Followed p)
    (hn : ∀ name ∈ names, IsName name) (hd : IsDocument names)
    (h : fs.isFile (p.join ("/".intercalate names)) = true) :
    ∃ q ∈ fs.discover p [Project.defaultPattern],
      placeOf fs q = placeOf fs (p.join ("/".intercalate names)) := by
  have hne := hd.ne_nil
  have hr := relative_names hn
  obtain ⟨t', hw⟩ := exists_of_isFile h
  obtain ⟨t, p', he, hp', hu, hx⟩ := exists_followed hp hf hn hne rfl hw
  have hfq : Fits (child p' ("/".intercalate names)) := by
    apply hp'.fits hr _ (Fits.of_resolve hw)
    · rw [hu]
    · intro _
      exact ne_empty_of_names hn hne
  have hq := hp'.resolve hr hfq
  rw [pieces_names hn hne, he] at hq
  refine ⟨child p' ("/".intercalate names), ?_, ?_⟩
  · rw [discover_eq fs hl hp, List.mem_filter, hx, mem_deep]
    refine ⟨⟨t, hp'.resolved, isDirectory_of_enter he hne, names, fs.reached t', ?_, hd, rfl⟩, ?_⟩
    · apply mem_nodes_of_enter (resolve_spec hp'.resolved).1 hne _ he
      intro name hm
      exact (hn name hm).1
    · rw [isFile_of_resolve hq, ← isFile_of_resolve hw, h]
  · rw [← (resolve_spec hq).2, (resolve_spec hw).2]

/-! ### Configurations -/

lemma isFile_of_mem_discover {patterns : List String} (h : q ∈ fs.discover p patterns) :
    fs.isFile q = true := by
  obtain ⟨s, -, h⟩ := List.mem_flatMap.mp h
  split at h
  · exact (List.mem_filter.mp h).2
  · cases h

def documentsOf (fs : FileSystem) (p : Path) : List Path :=
  if fs.isDirectory p then fs.discover p [Project.defaultPattern] else [p]

lemma isFile_of_not_isDirectory (h : fs.fileExists p = true) (hd : ¬ fs.isDirectory p = true) :
    fs.isFile p = true := by
  obtain ⟨t, ht⟩ := exists_of_fileExists h
  rw [isDirectory_of_resolve ht] at hd
  rw [isFile_of_resolve ht]
  simpa using hd

lemma documentsAt_eq (h : fs.fileExists p = true) :
    Request.documentsAt fs [Project.defaultPattern] p = .ok (documentsOf fs p) := by
  rw [Request.documentsAt, documentsOf]
  split
  · rfl
  next hd => rw [if_pos (isFile_of_not_isDirectory h hd)]

lemma mapM_documentsAt {ps : List Path} (h : ∀ p ∈ ps, fs.fileExists p = true) :
    ps.mapM (Request.documentsAt fs [Project.defaultPattern]) = .ok (ps.map (documentsOf fs)) := by
  induction ps with
  | nil => rfl
  | cons p ps ih =>
    obtain ⟨hp, hps⟩ := List.forall_mem_cons.mp h
    rw [List.mapM_cons, documentsAt_eq hp, ih hps]
    rfl

lemma configure_ok {r : Request} (hr : r.project = none) (hn : r.paths ≠ [])
    (he : ∀ p ∈ r.paths, fs.fileExists p = true) :
    ∃ c, r.configure fs = .ok c ∧ c.inputs = Path.sorted (r.paths.flatMap (documentsOf fs)) := by
  have hb : r.paths.isEmpty = false := by simpa using hn
  have hp : r.projectPath? fs = none := by
    rw [Request.projectPath?, hr, hb]
    rfl
  have hd : Request.documents fs (Request.baseDirectory none) [Project.defaultPattern] r.paths =
      .ok (r.paths.flatMap (documentsOf fs)) := by
    rw [Request.documents, hb, mapM_documentsAt he, List.flatMap_def]
    rfl
  simp only [Request.configure, hp]
  change ∃ c, (Request.documents fs _ [Project.defaultPattern] r.paths >>= _) = _ ∧ _
  rw [hd]
  exact ⟨_, rfl, rfl⟩

lemma mem_documentsOf (he : fs.fileExists p = true) (h : q ∈ documentsOf fs p) :
    fs.isFile q = true ∧
      (q = p ∨ fs.isDirectory p = true ∧ q ∈ fs.discover p [Project.defaultPattern]) := by
  rw [documentsOf] at h
  split at h
  next hd => exact ⟨isFile_of_mem_discover h, .inr ⟨hd, h⟩⟩
  next hd =>
    cases List.mem_singleton.mp h
    exact ⟨isFile_of_not_isDirectory he hd, .inl rfl⟩

/-- Of a directory that spells no wildcard all documents are found, at any depth to which a path can
reach, and nothing else. If a slash is doubled right after the dots at its start, none are. -/
theorem documents_discovered (fs : FileSystem) (r : Request) (p : Path) (hr : r.project = none)
    (he : ∀ q ∈ r.paths, fs.fileExists q = true) (hm : p ∈ r.paths)
    (hd : fs.isDirectory p = true) (hl : Literal p) (hw : WellNamed fs) :
    ∃ c, r.configure fs = .ok c ∧
      (Followed p → ∀ names, (∀ name ∈ names, IsName name) → IsDocument names →
        fs.isFile (p.join ("/".intercalate names)) = true →
        ∃ q ∈ c.inputs, fs.isFile q = true ∧ placeOf fs q = placeOf fs p ++ names) ∧
      (¬ Followed p → fs.discover p [Project.defaultPattern] = []) ∧
      (∀ q ∈ fs.discover p [Project.defaultPattern], fs.isFile q = true ∧
        ∃ names, IsDocument names ∧ placeOf fs q = placeOf fs p ++ names) ∧
      ∀ q ∈ c.inputs, fs.isFile q = true ∧ ∃ p' ∈ r.paths, q = p' ∨
        fs.isDirectory p' = true ∧ q ∈ fs.discover p' [Project.defaultPattern] := by
  have hp : p.text ≠ "" := by
    obtain ⟨t, ht⟩ := exists_of_fileExists (he p hm)
    exact (Fits.of_resolve ht).nonempty
  obtain ⟨c, hc, hi⟩ := configure_ok hr (List.ne_nil_of_mem hm) he
  have hin : ∀ q ∈ c.inputs, fs.isFile q = true ∧ ∃ p' ∈ r.paths, q = p' ∨
      fs.isDirectory p' = true ∧ q ∈ fs.discover p' [Project.defaultPattern] := by
    intro q hq
    rw [hi] at hq
    obtain ⟨p', hp', hq⟩ := List.mem_flatMap.mp (mem_of_mem_sorted hq)
    obtain ⟨hf, hq⟩ := mem_documentsOf (he p' hp') hq
    exact ⟨hf, p', hp', hq⟩
  refine ⟨c, hc, ?_, discover_unfollowed fs hl hp, fun q hq => discover_sound hl hp hw hq, hin⟩
  intro hf names hn hdoc hfile
  obtain ⟨q, hq, hplace⟩ := discover_complete hl hp hf hn hdoc hfile
  have hmem : q ∈ r.paths.flatMap (documentsOf fs) := by
    refine List.mem_flatMap.mpr ⟨p, hm, ?_⟩
    rw [documentsOf, if_pos hd]
    exact hq
  -- The list may keep another spelling of the same path.
  obtain ⟨q', hq', hs⟩ := exists_mem_sorted hmem
  rw [← hi] at hq'
  refine ⟨q', hq', (hin q' hq').1, ?_⟩
  rw [placeOf_same hs, hplace, placeOf_join_relative fs p (relative_names hn),
    pieces_names hn hdoc.ne_nil, foldl_advance fun name hm => (hn name hm).1]

/-! A directory that spells a wildcard, beside one that matches it. -/

def shelf : FileSystem where
  root := .directory
    [("v1", .directory [("a.tui.xaml", .file .empty)]),
    ("v[1]", .directory [("a.tui.xaml", .file .empty)]),
    ("w", .directory [("n.txt", .file .empty), ("x", .directory [("b.tui.xaml", .file .empty)])])]
  working := []

theorem documents_discovered_nested :
    ∃ c, Request.configure shelf { paths := [⟨"v1"⟩, ⟨"./w//"⟩] } = .ok c ∧
      ∃ q ∈ c.inputs, shelf.isFile q = true ∧ placeOf shelf q = ["w", "x", "b.tui.xaml"] := by
  have hn : IsDocument ["x", "b.tui.xaml"] := ⟨["x"], "b.tui.xaml", rfl, by decide +kernel⟩
  obtain ⟨c, hc, hd, -⟩ := documents_discovered shelf { paths := [⟨"v1"⟩, ⟨"./w//"⟩] } ⟨"./w//"⟩
    rfl (by decide +kernel) (.tail _ (.head _)) (by decide +kernel) (by decide +kernel)
    (by decide +kernel)
  exact ⟨c, hc, hd (by decide +kernel) _ (by decide +kernel) hn (by decide +kernel)⟩

theorem bracketed_missed :
    shelf.isDirectory ⟨"v[1]"⟩ = true ∧ shelf.isFile (Path.join ⟨"v[1]"⟩ "a.tui.xaml") = true ∧
      ∃ c, Request.configure shelf { paths := [⟨"v[1]"⟩] } = .ok c ∧
        c.inputs = [⟨"v1/a.tui.xaml"⟩] ∧
        ∀ q ∈ c.inputs, ∀ names, placeOf shelf q ≠ placeOf shelf ⟨"v[1]"⟩ ++ names := by
  have hr : (Request.configure shelf { paths := [⟨"v[1]"⟩] }).toOption.map (·.inputs) =
      some [⟨"v1/a.tui.xaml"⟩] := by
    decide +kernel
  refine ⟨by decide +kernel, by decide +kernel, ?_⟩
  cases hc : Request.configure shelf { paths := [⟨"v[1]"⟩] } with
  | error e =>
    rw [hc] at hr
    cases hr
  | ok c =>
    rw [hc] at hr
    have hi : c.inputs = [⟨"v1/a.tui.xaml"⟩] := Option.some.inj hr
    refine ⟨c, rfl, hi, ?_⟩
    rw [hi]
    intro q hq names h
    cases List.mem_singleton.mp hq
    have hv : "v1" = "v[1]" := (List.cons.inj h).1
    exact absurd hv (by decide)

end TuiMarkup.Proofs.Discovery
