import TuiMarkup.Text.Split

/-!
Wildcards for names: `*` stands for any characters, `?` for one, and brackets for one of a set.
`matchesChars` says what a list of marks stands for. `matchRow` decides it for all ends of a text at
once, mark by mark, in time proportional to both lengths, where trying the stars one inside the other
would not end in time; `matchRow_eq` says that the two agree.

Marks and brackets are those of the library `glob`. It is assumed that it tells characters apart by
their code points, so that a range holds what lies between two of them.
-/

namespace TuiMarkup.Glob

inductive Range where
  | one (c : Char)
  | between (first last : Char)
deriving DecidableEq, Repr

def Range.holds (c : Char) : Range → Bool
  | one d => c == d
  | between first last => first ≤ c && c ≤ last

inductive Mark where
  | char (c : Char)
  | anyChar
  | anyChars
  | within (ranges : List Range)
  | except (ranges : List Range)
deriving DecidableEq, Repr

def readRanges : List Char → List Range
  | first :: '-' :: last :: cs => .between first last :: readRanges cs
  | c :: cs => .one c :: readRanges cs
  | [] => []

theorem length_cutFirstChars {sep : Char} {cs before rest : List Char}
    (h : Text.cutFirstChars sep cs = some (before, rest)) : rest.length < cs.length := by
  induction cs generalizing before with
  | nil => simp [Text.cutFirstChars] at h
  | cons c cs ih =>
    unfold Text.cutFirstChars at h
    split at h
    · cases h
      simp
    · simp only [Option.map_eq_some_iff, Prod.exists, Prod.mk.injEq] at h
      obtain ⟨b, r, hb, _, rfl⟩ := h
      exact Nat.lt_succ_of_lt (ih hb)

/-- Reads a component other than `**`. The first character inside brackets belongs to the set, also
when it is a closing bracket. -/
def readMarks? : List Char → Option (List Mark)
  | [] => some []
  | '?' :: cs => (readMarks? cs).map (.anyChar :: ·)
  | '*' :: '*' :: _ => none
  | '*' :: cs => (readMarks? cs).map (.anyChars :: ·)
  | '[' :: '!' :: c :: cs =>
    match _h : Text.cutFirstChars ']' cs with
    | some (set, rest) => (readMarks? rest).map (.except (readRanges (c :: set)) :: ·)
    | none => none
  | '[' :: '!' :: [] => none
  | '[' :: c :: cs =>
    match _h : Text.cutFirstChars ']' cs with
    | some (set, rest) => (readMarks? rest).map (.within (readRanges (c :: set)) :: ·)
    | none => none
  | '[' :: [] => none
  | c :: cs => (readMarks? cs).map (.char c :: ·)
termination_by cs => cs.length
decreasing_by
  · simp
  · simp
  · have := length_cutFirstChars _h
    simp only [List.length_cons]
    omega
  · have := length_cutFirstChars _h
    simp only [List.length_cons]
    omega
  · simp

def Mark.holds (c : Char) : Mark → Bool
  | char d => c == d
  | anyChar => true
  | anyChars => true
  | within ranges => ranges.any (·.holds c)
  | except ranges => !ranges.any (·.holds c)

def ends : List Char → List (List Char)
  | [] => [[]]
  | c :: cs => (c :: cs) :: ends cs

/-- Whether the marks stand for these characters. After a star the rest stands for some end of
them. -/
def matchesChars : List Mark → List Char → Bool
  | [], cs => cs.isEmpty
  | .anyChars :: ms, cs => (ends cs).any (matchesChars ms)
  | _ :: _, [] => false
  | m :: ms, c :: cs => m.holds c && matchesChars ms cs

/-- For each place whether it or one after it holds. -/
def anyFrom : List Bool → List Bool
  | [] => []
  | b :: bs =>
    let rest := anyFrom bs
    (b || rest.headD false) :: rest

/-- For each end of a text whether the marks stand for it. -/
def matchRow : List Mark → List Char → List Bool
  | [], cs => cs.map (fun _ => false) ++ [true]
  | .anyChars :: ms, cs => anyFrom (matchRow ms cs)
  | m :: ms, cs => List.zipWith (fun c b => m.holds c && b) cs (matchRow ms cs).tail ++ [false]

theorem ends_eq_cons (cs : List Char) : ∃ rest, ends cs = cs :: rest := by
  cases cs with
  | nil => exact ⟨[], rfl⟩
  | cons c cs => exact ⟨ends cs, rfl⟩

theorem anyFrom_map_ends (f : List Char → Bool) (cs : List Char) :
    anyFrom ((ends cs).map f) = (ends cs).map fun e => (ends e).any f := by
  induction cs with
  | nil => simp [ends, anyFrom]
  | cons c cs ih =>
    obtain ⟨rest, hr⟩ := ends_eq_cons cs
    rw [ends, List.map_cons, anyFrom, ih, List.map_cons, hr]
    simp [ends, hr]

theorem zipWith_tail_ends (p : Char → Bool) (f : List Char → Bool) (cs : List Char) :
    List.zipWith (fun c b => p c && b) cs ((ends cs).map f).tail ++ [false] =
      (ends cs).map fun
        | [] => false
        | c :: rest => p c && f rest := by
  induction cs with
  | nil => rfl
  | cons c cs ih =>
    obtain ⟨rest, hr⟩ := ends_eq_cons cs
    rw [ends, List.map_cons, List.tail_cons, List.map_cons, ← ih, hr]
    simp

theorem matchRow_eq (ms : List Mark) (cs : List Char) :
    matchRow ms cs = (ends cs).map (matchesChars ms) := by
  induction ms with
  | nil =>
    induction cs with
    | nil => rfl
    | cons c cs ih =>
      rw [ends, List.map_cons, ← ih]
      rfl
  | cons m ms ih =>
    cases m with
    | anyChars =>
      rw [matchRow, ih, anyFrom_map_ends]
      rfl
    | _ =>
      rw [matchRow, ih, zipWith_tail_ends]
      · refine List.map_congr_left fun e _ => ?_
        cases e <;> rfl
      · simp

/-- Decides `matchesChars`. -/
def admitsChars (ms : List Mark) (cs : List Char) : Bool :=
  (matchRow ms cs).headD false

theorem admitsChars_eq (ms : List Mark) (cs : List Char) :
    admitsChars ms cs = matchesChars ms cs := by
  obtain ⟨rest, hr⟩ := ends_eq_cons cs
  rw [admitsChars, matchRow_eq, hr]
  rfl

end TuiMarkup.Glob
