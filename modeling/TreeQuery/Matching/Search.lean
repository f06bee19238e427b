import TreeQuery.Location
import TreeQuery.Matching.Positions

/-! Searches below a value. A search stands at a location and records what it finds there. It goes
down to a child by one more key and comes back by taking the last key away, whatever that is. -/

namespace TreeQuery

/-- A present value and the keys that lead to it. -/
structure Match where
  path : Location
  value : Value

/-- The scopes that a path can start from, outermost first and the current one last. -/
abbrev Scopes := List Value

/-- A search under way: where it stands, and what has been found so far. -/
structure Search where
  here : Location
  found : Array Match

namespace Search

/-- A search that stands at the value it starts from. -/
def start : Search := ⟨[], #[]⟩

/-- Goes down to the child under `key`. -/
def enter (s : Search) (key : Key) : Search := { s with here := s.here ++ [key] }

/-- Goes up again, by the last key. -/
def leave (s : Search) : Search := { s with here := s.here.dropLast }

/-- Records the value that stands where the search does. -/
def mark (s : Search) (value : Value) : Search :=
  { s with found := s.found.push ⟨s.here, value⟩ }

/-- Records the child under `key`. -/
def record (s : Search) (key : Key) (value : Value) : Search := ((s.enter key).mark value).leave

/-- Searches below the child under `key`, and comes back. -/
def below (s : Search) (key : Key) (inner : Search → Search) : Search :=
  (inner (s.enter key)).leave

/-- Records children in order. -/
def recordAll (s : Search) (children : List (Key × Value)) : Search :=
  children.foldl (fun s c => s.record c.1 c.2) s

/-! ### Properties by name -/

/-- The properties of these names that a value has, in the order asked for. -/
def namedChildren (names : List String) (v : Value) : List (Key × Value) :=
  names.filterMap fun name => (v.property? name).map fun x => (.name name, x)

/-- The properties of these names anywhere below a value: its own first, then those below each
of its children in turn. -/
def namedBelow (names : List String) (v : Value) (s : Search) : Search :=
  v.children.attach.foldl
    (fun s ⟨(key, x), _⟩ => s.below key (namedBelow names x)) (s.recordAll (namedChildren names v))
termination_by sizeOf v
decreasing_by exact Value.sizeOf_lt_of_mem_children ‹_›

/-! ### Elements by position -/

/-- The items at these positions that hold something. -/
def itemsAt (positions : List Nat) (items : List Value) : List (Key × Value) :=
  let table := items.toArray
  positions.filterMap fun i => (table[i]?.filter Value.isPresent).map fun x => (.index i, x)

/-- The elements at positions counted from either end, in the order asked for. -/
def elements (positions : List Int) (v : Value) : List (Key × Value) :=
  match v.items? with
  | some items => itemsAt (positions.filterMap (Positions.single? items.length)) items
  | none => []

/-- The elements of a slice, in the order it takes them. -/
def slice (start stop step : Option Int) (v : Value) : List (Key × Value) :=
  match v.items? with
  | some items => itemsAt (Positions.slice items.length start stop step) items
  | none => []

/-! ### All and chosen descendants -/

/-- Everything below a value: its children first, then what is below each of them. -/
def allBelow (v : Value) (s : Search) : Search :=
  v.children.attach.foldl (fun s ⟨(key, x), _⟩ => s.below key (allBelow x))
    (s.recordAll v.children)
termination_by sizeOf v
decreasing_by exact Value.sizeOf_lt_of_mem_children ‹_›

/-- The children that pass `test`, each as the current scope. -/
def passing (test : Scopes → Bool) (scopes : Scopes) (v : Value) : List (Key × Value) :=
  v.children.filter fun c => test (scopes ++ [c.2])

/-- Everything below a value that passes `test`. The search goes on below a child whether or not
it passes, and the child stays among the scopes meanwhile. -/
def passingBelow (test : Scopes → Bool) (scopes : Scopes) (v : Value) (s : Search) : Search :=
  v.children.attach.foldl
    (fun s ⟨(key, x), _⟩ => s.below key (passingBelow test (scopes ++ [x]) x))
    (s.recordAll (passing test scopes v))
termination_by sizeOf v
decreasing_by exact Value.sizeOf_lt_of_mem_children ‹_›

end Search

end TreeQuery
