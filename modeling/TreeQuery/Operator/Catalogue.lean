import TreeQuery.Operator.Basic

/-! Further operators, ready to be registered under a name of one's choice. -/

namespace TreeQuery.Operator

/-- Lower case, for the letters of ASCII only. -/
def foldCase (s : String) : List Char := s.toList.map Char.toLower

/-- Whether `t` stands somewhere within a text. -/
def occurs (t : List Char) : List Char → Bool
  | [] => t.isEmpty
  | c :: cs => t.isPrefixOf (c :: cs) || occurs t cs

/-- The left text contains the right one. -/
def like : Operator
  | .string s, some (.string t) => occurs t.toList s.toList
  | _, _ => false

/-- Two texts are the same but for the case of their ASCII letters. -/
def sameLetters : Operator
  | .string s, some (.string t) => foldCase s == foldCase t
  | _, _ => false

/-- The left number is the greater. -/
def above : Operator
  | .number x, some (.number y) => x > y
  | _, _ => false

/-- The left text has more characters than the right number says. -/
def longerThan : Operator
  | .string s, some (.number y) => Float.ofNat s.length > y
  | _, _ => false

/-- The left operand is true. -/
def truthy : Operator
  | .bool b, _ => b
  | _, _ => false

def absent : Operator := fun x _ => x.isAbsent

/-- No right operand is given. -/
def unary : Operator := fun _ y => y.isNone

/-- Both operands are of one kind. -/
def sameKind : Operator
  | x, some y => x.kind == y.kind
  | _, none => false

def always : Operator := fun _ _ => true

def never : Operator := fun _ _ => false

/-- The operators by the names they are known under. -/
def catalogue : List (String × Operator) :=
  [("is", is), ("in", isIn), ("empty", empty), ("like", like), ("ieq", sameLetters),
    ("above", above), ("longer_than", longerThan), ("truthy", truthy), ("absent", absent),
    ("unary", unary), ("same_kind", sameKind), ("always", always), ("never", never)]

end TreeQuery.Operator
