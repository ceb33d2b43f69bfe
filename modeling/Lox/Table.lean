/-!
# Tables of names

A finite map from names, kept in the order of first insertion: writing a name that is there replaces
its value in place. The main statement is `get?_insert`.
-/

namespace Lox

structure Table (α : Type) where
  entries : List (String × α) := []
deriving DecidableEq, Repr, Inhabited

namespace Table

def empty : Table α := {}

def get? (t : Table α) (name : String) : Option α := t.entries.lookup name

def contains (t : Table α) (name : String) : Bool := (t.get? name).isSome

/-- The names, in order of first insertion. -/
def names (t : Table α) : List String := t.entries.map Prod.fst

/-- Replaces the value of a name in place, or adds the name at the end. -/
def insertEntry (name : String) (value : α) : List (String × α) → List (String × α)
  | [] => [(name, value)]
  | (key, old) :: rest =>
    if name == key then (key, value) :: rest else (key, old) :: insertEntry name value rest

def insert (t : Table α) (name : String) (value : α) : Table α :=
  ⟨insertEntry name value t.entries⟩

/-- Inserts pairs from left to right, so that the last of a name wins. -/
def insertAll (t : Table α) (pairs : List (String × α)) : Table α :=
  pairs.foldl (fun t p => t.insert p.1 p.2) t

theorem lookup_insertEntry (name other : String) (value : α) (l : List (String × α)) :
    (insertEntry name value l).lookup other =
      if other = name then some value else l.lookup other := by
  induction l with
  | nil => grind [insertEntry]
  | cons p rest ih => grind [insertEntry]

/-- Reading after a write gives the written value for its name and the old one for any other. -/
@[simp] theorem get?_insert (t : Table α) (name other : String) (value : α) :
    (t.insert name value).get? other = if other = name then some value else t.get? other :=
  lookup_insertEntry name other value t.entries

@[simp] theorem get?_empty (name : String) : (empty : Table α).get? name = none := rfl

end Table

end Lox
