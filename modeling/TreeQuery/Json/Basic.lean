import TreeQuery.Decimal.Reading

/-! Document text as a tree. Unlike a value, a document keeps whole numbers apart from floating
point ones and may repeat a member name, so that a reader can still object to the repetition. -/

namespace TreeQuery

namespace Json

/-- A number as written: whole, within 64 bits of either signedness, or floating point. -/
inductive Number where
  | whole (n : Int)
  | float (x : Float)

def Number.toFloat : Number → Float
  | .whole n => Float.ofInt n
  | .float x => x

end Json

/-- A document. -/
inductive Json where
  | null
  | bool (b : Bool)
  | number (n : Json.Number)
  | string (s : String)
  | array (items : List Json)
  | object (members : List (String × Json))
  deriving Inhabited

namespace Json

/-- The whole number `n` as a document. -/
def nat (n : Nat) : Json := .number (.whole n)

def string? : Json → Option String
  | string s => some s
  | _ => none

def bool? : Json → Option Bool
  | bool b => some b
  | _ => none

/-- Whether a whole number fits 64 bits without a sign. -/
def fitsUnsigned (n : Nat) : Bool := n < Nat.pow 2 64

/-- Whether a whole number fits 64 bits with a sign. -/
def fitsSigned (n : Int) : Bool := -(Nat.pow 2 63 : Int) ≤ n && n < (Nat.pow 2 63 : Int)

/-- A whole number from 0 that fits 64 bits. -/
def index? : Json → Option Nat
  | number (.whole (.ofNat n)) => if fitsUnsigned n then some n else none
  | _ => none

/-- A whole number within 64 signed bits. -/
def int? : Json → Option Int
  | number (.whole n) => if fitsSigned n then some n else none
  | _ => none

/-- The member of that name; of several, the last. -/
def member? (j : Json) (name : String) : Option Json :=
  match j with
  | object members => members.reverse.lookup name
  | _ => none

/-- Adds a member. A name that is there already keeps its place and takes the new content. -/
def insertMember {α : Type} (members : List (String × α)) (name : String) (content : α) :
    List (String × α) :=
  if members.any (·.1 == name) then
    members.map fun m => if m.1 == name then (name, content) else m
  else members ++ [(name, content)]

/-- The members with repetitions resolved. -/
def distinctMembers {α : Type} (members : List (String × α)) : List (String × α) :=
  members.foldl (fun kept m => insertMember kept m.1 m.2) []

end Json

end TreeQuery
