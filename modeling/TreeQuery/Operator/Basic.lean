import TreeQuery.Value.Compare

/-! Operators and the registries that name them. An operator decides a left operand, and a right
one where it is given. -/

namespace TreeQuery

abbrev Operator := Value → Option Value → Bool

namespace Operator

/-- Equality of two present values. -/
def is : Operator
  | x, some y => x.isPresent && y.isPresent && x == y
  | _, none => false

/-- Membership of a value other than null in an array. -/
def isIn : Operator
  | x, some (.array items) => x.isPresent && !x.isNull && items.any fun y => is x (some y)
  | _, _ => false

/-- Emptiness; a right operand makes no difference. -/
def empty : Operator := fun x _ => x.isEmpty

end Operator

/-- Operators by name. -/
structure Registry where
  entries : List (String × Operator)

namespace Registry

def empty : Registry := ⟨[]⟩

def get? (r : Registry) (name : String) : Option Operator := r.entries.lookup name

def contains (r : Registry) (name : String) : Bool := (r.get? name).isSome

/-- Names an operator; what the name stood for before is forgotten. -/
def insert (r : Registry) (name : String) (op : Operator) : Registry :=
  ⟨(name, op) :: r.entries.filter (·.1 != name)⟩

/-- Names several operators, one after the other. -/
def insertAll (r : Registry) (ops : List (String × Operator)) : Registry :=
  ops.foldl (fun r e => r.insert e.1 e.2) r

/-- The operators of both; where both have a name, `s` decides. -/
def merge (r s : Registry) : Registry := r.insertAll s.entries

/-- The names, in order. -/
def names (r : Registry) : List String :=
  (r.entries.map (·.1)).mergeSort fun a b => decide (a ≤ b)

/-- The operators that are always there. -/
def builtin : Registry :=
  empty.insertAll [("is", Operator.is), ("in", Operator.isIn), ("empty", Operator.empty)]

end Registry

end TreeQuery
