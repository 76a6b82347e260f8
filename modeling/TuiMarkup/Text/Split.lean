/-!
Texts cut at a separator, stripped of a known head or tail, and compared without regard to case.
Each operation is stated on lists of characters first; the form on `String` only changes the
representation.
-/

namespace TuiMarkup.Text

def cutFirstChars (sep : Char) : List Char → Option (List Char × List Char)
  | [] => none
  | c :: cs =>
    if c = sep then some ([], cs)
    else (cutFirstChars sep cs).map fun (before, after) => (c :: before, after)

def cutLastChars (sep : Char) : List Char → Option (List Char × List Char)
  | [] => none
  | c :: cs =>
    match cutLastChars sep cs with
    | some (before, after) => some (c :: before, after)
    | none => if c = sep then some ([], cs) else none

/-- The pieces between separators; there is one more of them than there are separators. -/
def piecesChars (sep : Char) : List Char → List (List Char)
  | [] => [[]]
  | c :: cs =>
    if c = sep then [] :: piecesChars sep cs
    else match piecesChars sep cs with
      | [] => [[c]]
      | p :: ps => (c :: p) :: ps

def afterStartChars? : List Char → List Char → Option (List Char)
  | [], cs => some cs
  | _ :: _, [] => none
  | h :: hs, c :: cs => if h = c then afterStartChars? hs cs else none

theorem afterStartChars?_eq_some {head cs rest : List Char} :
    afterStartChars? head cs = some rest ↔ cs = head ++ rest := by
  induction head generalizing cs with
  | nil => simp [afterStartChars?]
  | cons h hs ih =>
    cases cs with
    | nil => simp [afterStartChars?]
    | cons c cs =>
      by_cases hc : h = c
      · simp [afterStartChars?, hc, ih]
      · simp [afterStartChars?, hc, Ne.symm hc]

def beforeEndChars? (tail cs : List Char) : Option (List Char) :=
  (afterStartChars? tail.reverse cs.reverse).map List.reverse

private def both (p : List Char × List Char) : String × String :=
  (String.ofList p.1, String.ofList p.2)

def cutFirst (sep : Char) (s : String) : Option (String × String) :=
  (cutFirstChars sep s.toList).map both

def cutLast (sep : Char) (s : String) : Option (String × String) :=
  (cutLastChars sep s.toList).map both

def pieces (sep : Char) (s : String) : List String :=
  (piecesChars sep s.toList).map String.ofList

def afterStart? (head s : String) : Option String :=
  (afterStartChars? head.toList s.toList).map String.ofList

def beforeEnd? (tail s : String) : Option String :=
  (beforeEndChars? tail.toList s.toList).map String.ofList

def startsWith (head s : String) : Bool :=
  (afterStart? head s).isSome

def endsWith (tail s : String) : Bool :=
  (beforeEnd? tail s).isSome

def hasChar (c : Char) (s : String) : Bool :=
  s.toList.contains c

def sameLetters (s t : String) : Bool :=
  s.toList.map Char.toLower == t.toList.map Char.toLower

def blanks (n : Nat) : String :=
  String.ofList (List.replicate n ' ')

end TuiMarkup.Text
