/-! Document trees. A value is what a query walks over: scalars, arrays and objects, and the
`absent` slot, which holds nothing and is what a missing property evaluates to. Objects keep
the order in which their members were written. -/

namespace TreeQuery

/-- A node of a document tree. -/
inductive Value where
  | absent
  | null
  | bool (b : Bool)
  | number (x : Float)
  | string (s : String)
  | array (items : List Value)
  | object (members : List (String × Value))
  deriving Inhabited

/-- One step from a value to one of its children. -/
inductive Key where
  | index (i : Nat)
  | name (s : String)
  deriving DecidableEq, Inhabited, Repr

namespace Value

/-- The kinds of value; values of different kinds are never equal. -/
inductive Kind where
  | absent | null | bool | number | string | array | object
  deriving DecidableEq, Repr

def kind : Value → Kind
  | absent => .absent
  | null => .null
  | bool _ => .bool
  | number _ => .number
  | string _ => .string
  | array _ => .array
  | object _ => .object

def isAbsent : Value → Bool
  | absent => true
  | _ => false

def isPresent (v : Value) : Bool := !v.isAbsent

def isNull : Value → Bool
  | null => true
  | _ => false

def bool? : Value → Option Bool
  | bool b => some b
  | _ => none

def number? : Value → Option Float
  | number x => some x
  | _ => none

def string? : Value → Option String
  | string s => some s
  | _ => none

def items? : Value → Option (List Value)
  | array items => some items
  | _ => none

def members? : Value → Option (List (String × Value))
  | object members => some members
  | _ => none

/-! ### Children -/

/-- The property called `name`. A property that holds nothing is as good as missing. -/
def property? (v : Value) (name : String) : Option Value :=
  (v.members?.bind (·.lookup name)).filter isPresent

/-- The element at position `i`, if there is one and it holds something. -/
def element? (v : Value) (i : Nat) : Option Value :=
  (v.items?.bind (·[i]?)).filter isPresent

def child? (v : Value) : Key → Option Value
  | .index i => v.element? i
  | .name s => v.property? s

/-- The present children with their keys: elements by position, members in the order written.
Scalars have none. -/
def children : Value → List (Key × Value)
  | array items => (items.zipIdx.map fun (x, i) => (Key.index i, x)).filter (·.2.isPresent)
  | object members => (members.map fun (s, x) => (Key.name s, x)).filter (·.2.isPresent)
  | _ => []

theorem sizeOf_lt_of_mem_children {v x : Value} {k : Key} (h : (k, x) ∈ v.children) :
    sizeOf x < sizeOf v := by
  cases v with
  | array items =>
    simp only [children, List.mem_filter, List.mem_map] at h
    obtain ⟨⟨⟨y, i⟩, hy, he⟩, -⟩ := h
    cases he
    have : sizeOf y < sizeOf items := List.sizeOf_lt_of_mem (List.fst_mem_of_mem_zipIdx hy)
    simp only [array.sizeOf_spec]
    omega
  | object members =>
    simp only [children, List.mem_filter, List.mem_map] at h
    obtain ⟨⟨⟨s, y⟩, hy, he⟩, -⟩ := h
    cases he
    have := List.sizeOf_lt_of_mem hy
    simp only [object.sizeOf_spec, Prod.mk.sizeOf_spec] at this ⊢
    omega
  | _ => simp [children] at h

end Value

end TreeQuery
