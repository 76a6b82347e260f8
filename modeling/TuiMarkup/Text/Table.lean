/-!
Tables from texts to values that keep the order in which their keys first came. Storing under a key
that is there already changes its value and not its place.
-/

namespace TuiMarkup

structure Table (α : Type) where
  entries : List (String × α) := []
deriving Repr

namespace Table

variable {α : Type}

/-- Stores `f` of the old value, if there is one, under `key`. -/
def upsertEntries (key : String) (f : Option α → α) : List (String × α) → List (String × α)
  | [] => [(key, f none)]
  | (k, v) :: rest =>
    if k = key then (k, f (some v)) :: rest else (k, v) :: upsertEntries key f rest

def upsert (t : Table α) (key : String) (f : Option α → α) : Table α :=
  ⟨upsertEntries key f t.entries⟩

def put (t : Table α) (key : String) (value : α) : Table α :=
  t.upsert key fun _ => value

def get? (t : Table α) (key : String) : Option α :=
  t.entries.lookup key

def keys (t : Table α) : List String :=
  t.entries.map Prod.fst

def ofList (entries : List (String × α)) : Table α :=
  entries.foldl (fun t (k, v) => t.put k v) {}

end Table

end TuiMarkup
