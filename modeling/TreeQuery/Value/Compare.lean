import TreeQuery.Value.Basic

/-! Structural equality and emptiness of values. Equality looks at what is present: two objects
are equal when their present members agree name by name, whatever the order. -/

namespace TreeQuery.Value

/-- How many members hold something. -/
def presentCount (members : List (String × Value)) : Nat :=
  members.countP (·.2.isPresent)

mutual

/-- Structural equality. Numbers compare as floating point numbers do, so a NaN differs from
itself; two absent values are equal, which lets arrays be compared element by element. -/
def equal : Value → Value → Bool
  | absent, absent => true
  | null, null => true
  | bool a, bool b => a == b
  | number x, number y => x == y
  | string s, string t => s == t
  | array xs, array ys => equalItems xs ys
  | object xs, object ys => presentCount xs == presentCount ys && equalMembers xs ys
  | _, _ => false

def equalItems : List Value → List Value → Bool
  | [], [] => true
  | x :: xs, y :: ys => equal x y && equalItems xs ys
  | _, _ => false

/-- Each present member of the first list has an equal partner of the same name in the second. -/
def equalMembers : List (String × Value) → List (String × Value) → Bool
  | [], _ => true
  | (s, x) :: rest, ys =>
    (x.isAbsent || match ys.lookup s with
      | some y => equal x y
      | none => false) && equalMembers rest ys

end

instance : BEq Value := ⟨equal⟩

mutual

/-- Nothing but absent slots, nulls, empty texts, and arrays and objects of such values. -/
def isEmpty : Value → Bool
  | absent => true
  | null => true
  | bool _ => false
  | number _ => false
  | string s => s.isEmpty
  | array items => allEmpty items
  | object members => membersEmpty members

def allEmpty : List Value → Bool
  | [] => true
  | x :: xs => isEmpty x && allEmpty xs

def membersEmpty : List (String × Value) → Bool
  | [] => true
  | (_, x) :: rest => isEmpty x && membersEmpty rest

end

end TreeQuery.Value
