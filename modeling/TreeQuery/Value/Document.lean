import TreeQuery.Json.Draft
import TreeQuery.Json.Printer
import TreeQuery.Value.Basic

/-! Values from documents and back. Numbers become floating point on the way in; on the way out
a whole number that floating point represents exactly is written as one. A document has no absent
slots: an absent member is left out, and any other absent value is written as null. -/

namespace TreeQuery.Value

mutual

def ofJson : Json → Value
  | .null => null
  | .bool b => bool b
  | .number n => number n.toFloat
  | .string s => string s
  | .array items => array (ofItems items)
  | .object members => object (Json.distinctMembers (ofMembers members))

def ofItems : List Json → List Value
  | [] => []
  | j :: rest => ofJson j :: ofItems rest

def ofMembers : List (String × Json) → List (String × Value)
  | [] => []
  | (name, j) :: rest => (name, ofJson j) :: ofMembers rest

end

/-- Up to this magnitude every whole number has a floating point number of its own. -/
def greatestExact : Nat := Nat.pow 2 53 - 1

/-- A number as documents write it. Infinities and NaN have no written form. -/
def numberJson (x : Float) : Json :=
  match Decimal.Binary.ofFloat? x with
  | none => .null
  | some b =>
    match b.toInt? with
    | some n => if n.natAbs ≤ greatestExact then .number (.whole n) else .number (.float x)
    | none => .number (.float x)

mutual

def toJson : Value → Json
  | absent => .null
  | null => .null
  | bool b => .bool b
  | number x => numberJson x
  | string s => .string s
  | array items => .array (itemsJson items)
  | object members => .object (membersJson members)

def itemsJson : List Value → List Json
  | [] => []
  | x :: rest => toJson x :: itemsJson rest

def membersJson : List (String × Value) → List (String × Json)
  | [] => []
  | (name, x) :: rest =>
    if x.isAbsent then membersJson rest else (name, toJson x) :: membersJson rest

end

/-- The text that shows a value: its document, or a word for a value that has none. -/
def display (v : Value) : String :=
  if v.isAbsent then "absent" else v.toJson.compact

/-- The value that a document text holds. -/
def ofText (text : String) : Except Json.Fault Value :=
  (Json.ofText text).map ofJson

end TreeQuery.Value
