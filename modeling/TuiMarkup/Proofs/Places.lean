import Mathlib.Tactic.Lemma
import TuiMarkup.Files.FileSystem

/-!
Where paths lead. There are no links and all names are Unicode texts, here and in what follows from
it. So the place of a path follows from its segments and the working directory alone, and it does not
move while files are written.
-/

namespace TuiMarkup.Proofs.Places

variable {n m new : Node} {fs fs' fs'' : FileSystem} {p : Path} {t t' u : Trail}
  {name key segment : String} {place directory : List String} {es : List (String × Node)}

/-! ### Nodes -/

lemma lookup_putEntry_self (name : String) (n : Node) (es : List (String × Node)) :
    (Node.putEntry name n es).lookup name = some n := by
  induction es with
  | nil => simp [Node.putEntry]
  | cons e es ih =>
    obtain ⟨k, m⟩ := e
    rw [Node.putEntry]
    split
    · exact List.lookup_cons_self
    · split
      · exact List.lookup_cons_self
      next hk _ =>
        have hb : (name == k) = false := by simpa using Ne.symm hk
        rw [List.lookup_cons, hb]
        exact ih

lemma lookup_putEntry_ne (h : key ≠ name) (n : Node) (es : List (String × Node)) :
    (Node.putEntry name n es).lookup key = es.lookup key := by
  have hb : (key == name) = false := by simpa using h
  induction es with
  | nil => simp [Node.putEntry, List.lookup_cons, hb]
  | cons e es ih =>
    obtain ⟨k, m⟩ := e
    rw [Node.putEntry]
    split
    next hk =>
      subst hk
      simp [List.lookup_cons, hb]
    · split
      · simp [List.lookup_cons, hb]
      · simp [List.lookup_cons, ih]

lemma get?_append (n : Node) (place rest : List String) :
    n.get? (place ++ rest) = (n.get? place).bind (·.get? rest) := by
  induction place generalizing n with
  | nil => rfl
  | cons name place ih =>
    simp only [List.cons_append, Node.get?, Option.bind_assoc]
    exact congrArg _ (funext ih)

lemma get?_concat (h : n.get? place = some m) (name : String) :
    n.get? (place ++ [name]) = m.entries.lookup name := by
  rw [get?_append, h]
  simp [Node.get?]

lemma get?_put_self (new n : Node) (place : List String) :
    (Node.put new place n).get? place = some new := by
  induction place generalizing n with
  | nil => rfl
  | cons name place ih =>
    rw [Node.put, Node.get?, Node.entries, lookup_putEntry_self]
    exact ih _

lemma isDirectory_of_lookup (h : n.entries.lookup name = some m) : n.isDirectory = true := by
  cases n with
  | file content => cases h
  | directory es => rfl

lemma eq_directory (h : n.isDirectory = true) : n = .directory n.entries := by
  cases n with
  | file content => cases h
  | directory es => rfl

/-! ### Sights -/

/-- What is seen at a place. What a directory holds is seen at the places under it. -/
inductive Sight where
  | nothing
  | directory
  | file (content : ByteArray)

def Sight.of : Option Node → Sight
  | none => .nothing
  | some (.directory _) => .directory
  | some (.file content) => .file content

lemma Sight.of_directory (h : n.isDirectory = true) : Sight.of (some n) = .directory := by
  rw [eq_directory h]
  rfl

lemma get?_of_entries_nil (h : n.entries = []) (name : String) (names : List String) :
    n.get? (name :: names) = none := by
  rw [Node.get?, h]
  rfl

lemma sight_put (hn : new.entries = []) (hd : n.get? directory = some (.directory es))
    (hf : ∀ o, es.lookup name = some o → o.isDirectory = false)
    (hp : place ≠ directory ++ [name]) :
    Sight.of ((Node.put new (directory ++ [name]) n).get? place) = Sight.of (n.get? place) := by
  induction directory generalizing n place with
  | nil =>
    cases hd
    cases place with
    | nil => rfl
    | cons k ks =>
      rw [List.nil_append, Node.put, Node.get?, Node.get?, Node.entries, Node.entries]
      by_cases hk : k = name
      · -- There is nothing below the name, neither before nor after.
        subst hk
        cases ks with
        | nil => exact absurd rfl hp
        | cons x xs =>
          have ho : (es.lookup k).bind (·.get? (x :: xs)) = none := by
            cases hl : es.lookup k with
            | none => rfl
            | some o =>
              have hof := hf o hl
              cases o with
              | file content => rfl
              | directory os => cases hof
          rw [lookup_putEntry_self, ho]
          exact congrArg Sight.of (get?_of_entries_nil hn x xs)
      · rw [lookup_putEntry_ne hk]
  | cons x directory ih =>
    obtain ⟨o, ho, hod⟩ := Option.bind_eq_some_iff.mp hd
    cases place with
    | nil => exact (Sight.of_directory (isDirectory_of_lookup ho)).symm
    | cons k ks =>
      rw [List.cons_append, Node.put, Node.get?, Node.get?, Node.entries]
      by_cases hk : k = x
      · subst hk
        rw [lookup_putEntry_self, ho]
        exact ih hod fun h => hp (by rw [h, List.cons_append])
      · rw [lookup_putEntry_ne hk]

/-! ### Places -/

def advance (place : List String) (segment : String) : List String :=
  if segment = "" || segment = "." then place
  else if segment = ".." then place.dropLast
  else place ++ [segment]

def Proper (segment : String) : Prop :=
  segment ≠ "" ∧ segment ≠ "." ∧ segment ≠ ".."

instance (segment : String) : Decidable (Proper segment) :=
  inferInstanceAs (Decidable (_ ∧ _ ∧ _))

lemma advance_proper (h : Proper segment) (place : List String) :
    advance place segment = place ++ [segment] := by
  obtain ⟨h₀, h₁, h₂⟩ := h
  rw [advance, if_neg (by simp [h₀, h₁]), if_neg h₂]

def startOf (fs : FileSystem) (p : Path) : List String :=
  if p.isAbsolute then [] else fs.working.foldl advance []

def placeOf (fs : FileSystem) (p : Path) : List String :=
  p.segments.foldl advance (startOf fs p)

lemma names_cons (name : String) (n : Node) (t : Trail) :
    Trail.names ((name, n) :: t) = t.names ++ [name] := by
  simp [Trail.names]

lemma names_tail (t : Trail) : Trail.names t.tail = (Trail.names t).dropLast := by
  cases t with
  | nil => rfl
  | cons e t => simp [Trail.names]

lemma placeOf_congr (h : fs'.working = fs.working) (p : Path) : placeOf fs' p = placeOf fs p := by
  rw [placeOf, placeOf, startOf, startOf, h]

/-- Each node of a trail is what the name leads to from the node before. -/
def Sound (fs : FileSystem) : Trail → Prop
  | [] => True
  | (name, n) :: t => (fs.reached t).entries.lookup name = some n ∧ Sound fs t

lemma Sound.node (h : Sound fs t) : fs.node? t.names = some (fs.reached t) := by
  induction t with
  | nil => rfl
  | cons e t ih =>
    obtain ⟨name, n⟩ := e
    rw [names_cons, FileSystem.node?, get?_concat (ih h.2)]
    exact h.1

lemma Sound.tail (h : Sound fs t) : Sound fs t.tail := by
  cases t with
  | nil => exact h
  | cons e t => exact h.2

lemma Sound.tail_isDirectory (h : Sound fs t) (hd : (fs.reached t).isDirectory = true) :
    (fs.reached t.tail).isDirectory = true := by
  cases t with
  | nil => exact hd
  | cons e t => exact isDirectory_of_lookup h.1

/-! ### Steps and runs -/

lemma ok_of_bind {α β : Type} {x : Except FileError α} {f : α → Except FileError β} {b : β}
    (h : x >>= f = .ok b) : ∃ a, x = .ok a ∧ f a = .ok b := by
  cases x with
  | error e => cases h
  | ok a => exact ⟨a, rfl, h⟩

lemma enter_cases (h : fs.enter t segment = .ok t') :
    (fs.reached t).isDirectory = true ∧
      ((segment = "" ∨ segment = ".") ∧ t' = t ∨
        segment = ".." ∧ t' = t.tail ∨
        ∃ n, Proper segment ∧ FileSystem.isTooLong segment = false ∧
          (fs.reached t).entries.lookup segment = some n ∧ t' = (segment, n) :: t) := by
  rw [FileSystem.enter] at h
  cases hr : fs.reached t with
  | file content =>
    rw [hr] at h
    cases h
  | directory es =>
    rw [hr] at h
    refine ⟨rfl, ?_⟩
    dsimp only at h
    split at h
    next hs =>
      cases h
      exact .inl ⟨by simpa using hs, rfl⟩
    next hs =>
      have hs : segment ≠ "" ∧ segment ≠ "." := by simpa using hs
      split at h
      next hu =>
        cases h
        exact .inr (.inl ⟨hu, rfl⟩)
      next hu =>
        split at h
        · cases h
        next hl =>
          split at h
          next n hn =>
            cases h
            exact .inr (.inr ⟨n, ⟨hs.1, hs.2, hu⟩, by simpa using hl, hn, rfl⟩)
          · cases h

lemma enter_idle (hd : (fs.reached t).isDirectory = true) (hs : segment = "" ∨ segment = ".") :
    fs.enter t segment = .ok t := by
  rw [FileSystem.enter, eq_directory hd]
  exact if_pos (by simpa using hs)

lemma isDirectory_of_enter {t' : Trail} (h : ss.foldlM fs.enter t = .ok t') (hs : ss ≠ []) :
    (fs.reached t).isDirectory = true := by
  cases ss with
  | nil => exact absurd rfl hs
  | cons s ss =>
    obtain ⟨t₁, h₁, -⟩ := ok_of_bind (List.foldlM_cons.symm.trans h)
    exact (enter_cases h₁).1

lemma enter_proper (hd : (fs.reached t).isDirectory = true) (hp : Proper segment)
    (hl : FileSystem.isTooLong segment = false)
    (hn : (fs.reached t).entries.lookup segment = some n) :
    fs.enter t segment = .ok ((segment, n) :: t) := by
  obtain ⟨h₀, h₁, h₂⟩ := hp
  rw [FileSystem.enter, eq_directory hd]
  dsimp only
  rw [if_neg (by simp [h₀, h₁]), if_neg h₂, if_neg (by simp [hl]), hn]

lemma enter_sound (hs : Sound fs t) (h : fs.enter t segment = .ok t') : Sound fs t' := by
  obtain ⟨-, ⟨-, rfl⟩ | ⟨-, rfl⟩ | ⟨n, -, -, hn, rfl⟩⟩ := enter_cases h
  · exact hs
  · exact hs.tail
  · exact ⟨hn, hs⟩

lemma enter_names (h : fs.enter t segment = .ok t') : t'.names = advance t.names segment := by
  obtain ⟨-, ⟨hi, rfl⟩ | ⟨rfl, rfl⟩ | ⟨n, hp, -, -, rfl⟩⟩ := enter_cases h
  · rw [advance, if_pos (by simpa using hi)]
  · rw [names_tail]
    rfl
  · rw [advance_proper hp, names_cons]

lemma foldlM_enter (hs : Sound fs t) {segments : List String}
    (h : segments.foldlM fs.enter t = .ok t') :
    Sound fs t' ∧ t'.names = segments.foldl advance t.names := by
  induction segments generalizing t with
  | nil =>
    cases h
    exact ⟨hs, rfl⟩
  | cons s ss ih =>
    obtain ⟨u, he, h⟩ := ok_of_bind (List.foldlM_cons.symm.trans h)
    obtain ⟨ht, hn⟩ := ih (enter_sound hs he) h
    exact ⟨ht, by rw [hn, enter_names he, List.foldl_cons]⟩

lemma start_eq (h : fs.start p = .ok t) (fs' : FileSystem) :
    fs'.start p = if p.isAbsolute then .ok [] else fs'.working.foldlM fs'.enter [] := by
  rw [FileSystem.start] at h ⊢
  split at h
  · cases h
  next h₀ =>
    split at h
    · cases h
    next h₁ =>
      split at h
      · cases h
      next h₂ => rw [if_neg h₀, if_neg h₁, if_neg h₂]

lemma start_spec (h : fs.start p = .ok t) : Sound fs t ∧ t.names = startOf fs p := by
  have hs := (start_eq h fs).symm.trans h
  rw [startOf]
  split at hs
  next ha =>
    cases hs
    exact ⟨trivial, by rw [if_pos ha]; rfl⟩
  next ha =>
    rw [if_neg ha]
    exact foldlM_enter (t := []) trivial hs

theorem resolve_spec (h : fs.resolve p = .ok t) : Sound fs t ∧ t.names = placeOf fs p := by
  obtain ⟨t₀, h₀, h⟩ := ok_of_bind h
  obtain ⟨hs, hn⟩ := start_spec h₀
  obtain ⟨ht, hp⟩ := foldlM_enter hs h
  exact ⟨ht, by rw [hp, hn, placeOf]⟩

/-! ### Growth -/

/-- Nothing is taken away, files stay files and directories stay directories. The content of a file
changes at the places that are written to only. -/
structure Grows (written : List String → Prop) (fs fs' : FileSystem) : Prop where
  working : fs'.working = fs.working
  node : ∀ place n, fs.node? place = some n → ∃ n', fs'.node? place = some n' ∧
    n'.isDirectory = n.isDirectory ∧ (¬ written place → n.isDirectory = false → n' = n)

variable {written written' made made' : List String → Prop}

lemma Grows.enter (h : Grows written fs fs') (hs : Sound fs t) (hu : Sound fs' u)
    (hn : u.names = t.names) (he : fs.enter t segment = .ok t') :
    ∃ u', fs'.enter u segment = .ok u' ∧ Sound fs' u' ∧ u'.names = t'.names := by
  have hk : (fs'.reached u).isDirectory = (fs.reached t).isDirectory := by
    obtain ⟨m, hm, hd, -⟩ := h.node _ _ hs.node
    rw [← hn, hu.node] at hm
    cases hm
    exact hd
  obtain ⟨hd, hc⟩ := enter_cases he
  rw [hd] at hk
  have hr := eq_directory hk
  obtain ⟨hi, rfl⟩ | ⟨rfl, rfl⟩ | ⟨n, hp, hl, hm, rfl⟩ := hc
  · exact ⟨u, enter_idle hk hi, hu, hn⟩
  · refine ⟨u.tail, ?_, hu.tail, by rw [names_tail, names_tail, hn]⟩
    rw [FileSystem.enter, hr]
    rfl
  · -- What the name led to is still there, of the same kind.
    have hs : fs.node? (t.names ++ [segment]) = some n := by
      rw [FileSystem.node?, get?_concat hs.node, hm]
    obtain ⟨m, hm, -, -⟩ := h.node _ _ hs
    rw [← hn, FileSystem.node?, get?_concat hu.node] at hm
    refine ⟨(segment, m) :: u, enter_proper hk hp hl hm, ⟨hm, hu⟩, ?_⟩
    rw [names_cons, names_cons, hn]

lemma Grows.foldlM_enter (h : Grows written fs fs') (hs : Sound fs t) (hu : Sound fs' u)
    (hn : u.names = t.names) {segments : List String}
    (he : segments.foldlM fs.enter t = .ok t') :
    ∃ u', segments.foldlM fs'.enter u = .ok u' ∧ Sound fs' u' ∧ u'.names = t'.names := by
  induction segments generalizing t u with
  | nil =>
    cases he
    exact ⟨u, rfl, hu, hn⟩
  | cons s ss ih =>
    obtain ⟨t₁, h₁, he⟩ := ok_of_bind (List.foldlM_cons.symm.trans he)
    obtain ⟨u₁, hu₁, hsu, hnu⟩ := h.enter hs hu hn h₁
    obtain ⟨u', hu', hr⟩ := ih (enter_sound hs h₁) hsu hnu he
    refine ⟨u', ?_, hr⟩
    rw [List.foldlM_cons, hu₁]
    exact hu'

lemma Grows.start (h : Grows written fs fs') (hs : fs.start p = .ok t) :
    ∃ u, fs'.start p = .ok u ∧ Sound fs' u ∧ u.names = t.names := by
  rw [start_eq hs fs', h.working]
  have hs := (start_eq hs fs).symm.trans hs
  split at hs
  next ha =>
    cases hs
    exact ⟨[], if_pos ha, trivial, rfl⟩
  next ha =>
    rw [if_neg ha]
    exact h.foldlM_enter (t := []) (u := []) trivial trivial rfl hs

theorem Grows.resolve (h : Grows written fs fs') (hr : fs.resolve p = .ok t) :
    ∃ u, fs'.resolve p = .ok u ∧ Sound fs' u ∧ u.names = t.names := by
  obtain ⟨t₀, hs, he⟩ := ok_of_bind hr
  obtain ⟨u₀, hu₀, hsu, hnu⟩ := h.start hs
  obtain ⟨u, hu, hr⟩ := h.foldlM_enter (start_spec hs).1 hsu hnu he
  refine ⟨u, ?_, hr⟩
  rw [FileSystem.resolve, hu₀]
  exact hu

/-! ### Changes -/

def sight (fs : FileSystem) (place : List String) : Sight :=
  .of (fs.node? place)

/-- What is seen changes only where a file is written, anew or over another one, and where a directory
is made in place of nothing. -/
structure Changes (written made : List String → Prop) (fs fs' : FileSystem) : Prop where
  working : fs'.working = fs.working
  seen : ∀ place, sight fs' place = sight fs place ∨
    (written place ∧ sight fs place ≠ .directory ∧ ∃ content, sight fs' place = .file content) ∨
    (made place ∧ sight fs place = .nothing ∧ sight fs' place = .directory)

lemma Changes.refl (written made : List String → Prop) (fs : FileSystem) :
    Changes written made fs fs :=
  ⟨rfl, fun _ => .inl rfl⟩

lemma Changes.trans (h : Changes written made fs fs') (h' : Changes written made fs' fs'') :
    Changes written made fs fs'' := by
  refine ⟨h'.working.trans h.working, fun place => ?_⟩
  obtain he | ⟨hw, hd, hf⟩ | ⟨hm, hn, hd⟩ := h.seen place
  · rw [← he]
    exact h'.seen place
  · obtain he' | ⟨-, -, hf'⟩ | ⟨-, hn', -⟩ := h'.seen place
    · exact .inr (.inl ⟨hw, hd, he' ▸ hf⟩)
    · exact .inr (.inl ⟨hw, hd, hf'⟩)
    · obtain ⟨content, hf⟩ := hf
      rw [hn'] at hf
      cases hf
  · obtain he' | ⟨-, hd', -⟩ | ⟨-, hn', -⟩ := h'.seen place
    · exact .inr (.inr ⟨hm, hn, he'.trans hd⟩)
    · exact absurd hd hd'
    · rw [hn'] at hd
      cases hd

lemma Changes.mono (h : Changes written made fs fs') (hw : ∀ place, written place → written' place)
    (hm : ∀ place, made place → made' place) : Changes written' made' fs fs' :=
  ⟨h.working, fun place => (h.seen place).imp_right
    (Or.imp (And.imp_left (hw place)) (And.imp_left (hm place)))⟩

lemma node_of_sight (h : sight fs' place = .of (some n)) :
    ∃ n', fs'.node? place = some n' ∧ n'.isDirectory = n.isDirectory ∧
      (n.isDirectory = false → n' = n) := by
  rw [sight] at h
  cases hn : fs'.node? place with
  | none =>
    rw [hn] at h
    cases n <;> cases h
  | some n' =>
    rw [hn] at h
    refine ⟨n', rfl, ?_⟩
    cases n' with
    | file content =>
      cases n <;> cases h
      exact ⟨rfl, fun _ => rfl⟩
    | directory es =>
      cases n <;> cases h
      exact ⟨rfl, fun hf => by cases hf⟩

lemma Changes.grows (h : Changes written made fs fs') : Grows written fs fs' := by
  refine ⟨h.working, fun place n hn => ?_⟩
  have ho : sight fs place = .of (some n) := congrArg Sight.of hn
  obtain he | ⟨hw, hd, content, hf⟩ | ⟨-, hno, -⟩ := h.seen place
  · obtain ⟨n', hn', hk, hc⟩ := node_of_sight (he.trans ho)
    exact ⟨n', hn', hk, fun _ => hc⟩
  · obtain ⟨n', hn', hk, -⟩ := node_of_sight (n := .file content) hf
    refine ⟨n', hn', ?_, fun hnw => absurd hw hnw⟩
    cases n with
    | file _ => exact hk
    | directory _ => exact absurd ho hd
  · rw [hno] at ho
    cases n <;> cases ho

lemma spot_cases {s : FileSystem.Spot} (h : fs.spot p = .ok s) :
    ∃ t₀, fs.start p = .ok t₀ ∧ p.segments.dropLast.foldlM fs.enter t₀ = .ok s.directory ∧
      (fs.reached s.directory).isDirectory = true ∧ s.name = p.segments.getLast?.getD "" ∧
      FileSystem.isTooLong s.name = false ∧
      s.node = (fs.reached s.directory).entries.lookup s.name := by
  obtain ⟨t₀, h₀, h⟩ := ok_of_bind h
  obtain ⟨d, hd, h⟩ := ok_of_bind h
  refine ⟨t₀, h₀, ?_⟩
  cases hr : fs.reached d with
  | file content =>
    rw [hr] at h
    cases h
  | directory es =>
    rw [hr] at h
    dsimp only at h
    split at h
    · cases h
    next hl =>
      cases h
      dsimp only
      rw [hr]
      exact ⟨hd, rfl, rfl, by simpa using hl, rfl⟩

lemma spot_sound {s : FileSystem.Spot} (h : fs.spot p = .ok s) : Sound fs s.directory := by
  obtain ⟨t₀, h₀, hd, -⟩ := spot_cases h
  exact (foldlM_enter (start_spec h₀).1 hd).1

lemma spot_segments {s : FileSystem.Spot} (h : fs.spot p = .ok s) (hn : s.name ≠ "") :
    p.segments = p.segments.dropLast ++ [s.name] := by
  obtain ⟨-, -, -, -, hs, -⟩ := spot_cases h
  cases hl : p.segments.getLast? with
  | none =>
    rw [hl] at hs
    exact absurd hs hn
  | some x =>
    rw [hl] at hs
    obtain ⟨ys, hy⟩ := List.getLast?_eq_some_iff.mp hl
    rw [hs, hy, List.dropLast_concat]
    rfl

lemma spot_place {s : FileSystem.Spot} (h : fs.spot p = .ok s) (hp : Proper s.name) :
    s.place = placeOf fs p := by
  obtain ⟨t₀, ht, hd, -⟩ := spot_cases h
  obtain ⟨hs, hn⟩ := start_spec ht
  rw [placeOf, spot_segments h hp.1, List.foldl_append, ← hn, ← (foldlM_enter hs hd).2]
  exact (advance_proper hp _).symm

lemma Proper.of_isName {s : FileSystem.Spot} (h : s.isName = true) : Proper s.name := by
  simpa [Proper, FileSystem.Spot.isName, and_assoc] using h

lemma sight_put_spot {s : FileSystem.Spot} (h : fs.spot p = .ok s) (hp : Proper s.name)
    (hf : s.node.any (·.isDirectory) = false) (new : Node) (hn : new.entries = [])
    (place : List String) :
    (place ≠ placeOf fs p → sight (fs.put s.place new) place = sight fs place) ∧
      sight (fs.put s.place new) (placeOf fs p) = .of (some new) ∧
      sight fs (placeOf fs p) = .of s.node := by
  obtain ⟨-, -, -, hd, -, -, he⟩ := spot_cases h
  have ht : fs.root.get? s.directory.names =
      some (.directory (fs.reached s.directory).entries) := by
    rw [← eq_directory hd]
    exact (spot_sound h).node
  rw [← spot_place h hp]
  refine ⟨fun hne => sight_put hn ht (fun o ho => ?_) hne, congrArg Sight.of (get?_put_self ..), ?_⟩
  · rw [he, ho] at hf
    exact hf
  · rw [sight, FileSystem.node?, FileSystem.Spot.place, get?_concat ht, he]
    rfl

lemma makeDirectory_changes (written : List String → Prop) (h : fs.makeDirectory p = .ok fs') :
    Changes written (· = placeOf fs p) fs fs' := by
  obtain ⟨s, hs, h⟩ := ok_of_bind h
  split at h
  next hn =>
    cases h
    obtain ⟨hn, ho⟩ := (Bool.and_eq_true ..).mp hn
    have ho : s.node = none := by simpa using ho
    refine ⟨rfl, fun place => ?_⟩
    obtain ⟨hne, hnew, hold⟩ :=
      sight_put_spot hs (.of_isName hn) (by rw [ho]; rfl) (.directory []) rfl place
    by_cases hp : place = placeOf fs p
    · rw [ho] at hold
      subst hp
      exact .inr (.inr ⟨rfl, hold, hnew⟩)
    · exact .inl (hne hp)
  · cases h

lemma makeDirectories_changes (written : List String → Prop) (ps : List Path) (fs : FileSystem) :
    Changes written (fun place => ∃ q ∈ ps, place = placeOf fs q) fs
      (fs.makeDirectories ps).1 := by
  induction ps generalizing fs with
  | nil => exact .refl ..
  | cons p ps ih =>
    have hm : ∀ {fs' : FileSystem}, fs'.working = fs.working → ∀ {fs''},
        fs'.makeDirectory p = .ok fs'' →
        Changes written (fun place => ∃ q ∈ p :: ps, place = placeOf fs q) fs' fs'' :=
      fun hw _ h => (makeDirectory_changes written h).mono (fun _ h => h)
        fun _ hp => ⟨p, .head _, hp.trans (placeOf_congr hw p)⟩
    rw [FileSystem.makeDirectories]
    split
    next h => exact hm rfl h
    · have hi : Changes written (fun place => ∃ q ∈ p :: ps, place = placeOf fs q) fs _ :=
        (ih fs).mono (fun _ h => h) fun _ ⟨q, hq, hp⟩ => ⟨q, .tail _ hq, hp⟩
      split
      next h =>
        rw [h] at hi
        exact hi
      next h =>
        rw [h] at hi
        split
        next h' => exact hi.trans (hm hi.working h')
        · exact hi
    · exact .refl ..

def Holds (fs : FileSystem) (p : Path) (text : String) : Prop :=
  ∃ t, fs.resolve p = .ok t ∧ fs.reached t = .file text.toUTF8

variable {text : String}

lemma Holds.readText (h : Holds fs p text) : fs.readText p = .ok text := by
  obtain ⟨t, ht, hr⟩ := h
  have hu : String.fromUTF8? text.toUTF8 = some text := by
    exact dif_pos text.isValidUTF8
  simp only [FileSystem.readText, ht, bind, Except.bind, hr, hu]

lemma Holds.grows (h : Holds fs p text) (hg : Grows written fs fs')
    (hw : ¬ written (placeOf fs p)) : Holds fs' p text := by
  obtain ⟨t, ht, hr⟩ := h
  obtain ⟨hs, hn⟩ := resolve_spec ht
  obtain ⟨u, hu, hsu, hnu⟩ := hg.resolve ht
  obtain ⟨m, hm, -, hk⟩ := hg.node _ _ hs.node
  rw [← hnu, hsu.node] at hm
  refine ⟨u, hu, ?_⟩
  rw [Option.some.inj hm, hk (hn ▸ hw) (by rw [hr]; rfl), hr]

lemma writeText_cases (h : fs.writeText p text = .ok fs') :
    ∃ s, fs.spot p = .ok s ∧ Proper s.name ∧ s.node.any (·.isDirectory) = false ∧
      fs' = fs.put s.place (.file text.toUTF8) := by
  obtain ⟨s, hs, h⟩ := ok_of_bind h
  split at h
  next hn =>
    cases h
    obtain ⟨hn, hf⟩ := (Bool.and_eq_true ..).mp hn
    exact ⟨s, hs, .of_isName hn, by simpa using hf, rfl⟩
  · cases h

lemma writeText_changes (made : List String → Prop) (h : fs.writeText p text = .ok fs') :
    Changes (· = placeOf fs p) made fs fs' := by
  obtain ⟨s, hs, hp, hf, rfl⟩ := writeText_cases h
  refine ⟨rfl, fun place => ?_⟩
  obtain ⟨hne, hnew, hold⟩ := sight_put_spot hs hp hf (.file text.toUTF8) rfl place
  by_cases hw : place = placeOf fs p
  · subst hw
    refine .inr (.inl ⟨rfl, ?_, _, hnew⟩)
    rw [hold]
    cases hn : s.node with
    | none => simp [Sight.of]
    | some n =>
      rw [hn] at hf
      cases n with
      | file content => simp [Sight.of]
      | directory es => cases hf
  · exact .inl (hne hw)

lemma writeText_holds (h : fs.writeText p text = .ok fs') : Holds fs' p text := by
  have hg := (writeText_changes (fun _ => False) h).grows
  obtain ⟨s, hs, hp, -, hw⟩ := writeText_cases h
  obtain ⟨t₀, ht, hd, -, -, hl, -⟩ := spot_cases hs
  -- The directory is reached as before, and the file stands there now.
  obtain ⟨u₀, hu₀, hsu₀, hnu₀⟩ := hg.start ht
  obtain ⟨u, hu, hsu, hnu⟩ := hg.foldlM_enter (start_spec ht).1 hsu₀ hnu₀ hd
  have hm : (fs'.reached u).entries.lookup s.name = some (.file text.toUTF8) := by
    rw [← get?_concat hsu.node, hnu, hw]
    exact get?_put_self ..
  refine ⟨(s.name, .file text.toUTF8) :: u, ?_, rfl⟩
  rw [FileSystem.resolve, hu₀, spot_segments hs hp.1]
  change List.foldlM _ u₀ _ = _
  rw [List.foldlM_append, hu]
  change List.foldlM _ u _ = _
  rw [List.foldlM_cons, enter_proper (isDirectory_of_lookup hm) hp hl hm]
  rfl

end TuiMarkup.Proofs.Places
