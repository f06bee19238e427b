import TreeQuery.Value.Basic

/-! Where a value stands: the keys that lead to it. The first key of a match's location is the
position of the scope entry it was reached from. -/

namespace TreeQuery

namespace Key

/-- Positions come before names, and names are ordered by their characters. -/
def compare : Key → Key → Ordering
  | index i, index j => Ord.compare i j
  | index _, name _ => .lt
  | name _, index _ => .gt
  | name s, name t => Ord.compare s t

def display : Key → String
  | index i => toString i
  | name s => "'" ++ s ++ "'"

end Key

/-- The keys from the base of a scope stack down to a value. -/
abbrev Location := List Key

namespace Location

/-- Whether `p` is `q` or lies below it. -/
def extends? (p q : Location) : Bool := q.isPrefixOf p

/-- Key by key; a location comes before those below it. -/
def compare : Location → Location → Ordering
  | [], [] => .eq
  | [], _ :: _ => .lt
  | _ :: _, [] => .gt
  | k :: p, l :: q => (k.compare l).then (compare p q)

def display (p : Location) : String :=
  "[" ++ ", ".intercalate (p.map Key.display) ++ "]"

end Location

end TreeQuery
