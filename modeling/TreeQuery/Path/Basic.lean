import TreeQuery.Value.Compare

/-! Paths and conditions as written. A path picks an entry of the scope stack and then goes from
value to value, one selector at a time; a filter among its selectors holds a condition, and the
operands of a condition are paths again. -/

namespace TreeQuery

/-- How a condition ranges over the values of an operand. -/
inductive Quantifier where
  /-- At least one value satisfies it. -/
  | some
  /-- All values satisfy it, which they do if there are none. -/
  | every
  deriving DecidableEq, Repr

mutual

/-- A part of a path. The first part of a path that can match is `root` or `relative`, and these
two have no place further on. `deep` extends a selector from the children of a value to all its
descendants. -/
inductive Selector where
  /-- The scope entry at a position, outermost first. -/
  | root (index : Nat)
  /-- The scope entry so many places before the current one. -/
  | relative (index : Nat)
  /-- The properties of these names. -/
  | named (names : List String) (deep : Bool)
  /-- The elements at these positions; negative ones count from the end. -/
  | elements (positions : List Int)
  /-- The elements from `start` to before `stop`, by steps of `step`. -/
  | slice (start stop step : Option Int)
  /-- All children. -/
  | all (deep : Bool)
  /-- The children for which the condition holds when they are the current scope. -/
  | filter (condition : Condition) (deep : Bool)

/-- What an operator is applied to. -/
inductive Operand where
  | value (v : Value)
  | path (path : List Selector) (quantifier : Option Quantifier)

/-- A boolean combination of operator applications, each of which may be negated. -/
inductive Condition where
  | or (left right : Condition)
  | and (left right : Condition)
  | unary (operator : String) (negate : Bool) (operand : Operand)
  | binary (operator : String) (negate : Bool) (left right : Operand)

end

instance : Inhabited Selector := ⟨.root 0⟩
instance : Inhabited Operand := ⟨.value .absent⟩
instance : Inhabited Condition := ⟨.unary "" false default⟩

abbrev Path := List Selector

namespace Selector

def isScope : Selector → Bool
  | root _ => true
  | relative _ => true
  | _ => false

/-- The current scope entry. -/
def current : Selector := relative 0

end Selector

namespace Path

/-- The path to the outermost scope entry. -/
def root : Path := [.root 0]

/-- The path to the current scope entry. -/
def current : Path := [.current]

end Path

namespace Condition

/-- The condition that holds when this one does not: only operator applications can be negated,
so connectives turn into their duals. -/
def negated : Condition → Condition
  | or l r => and l.negated r.negated
  | and l r => or l.negated r.negated
  | unary op negate x => unary op (!negate) x
  | binary op negate l r => binary op (!negate) l r

/-- The literals among the operands, left to right; those inside paths are not counted. -/
def literals : Condition → List Value
  | or l r => l.literals ++ r.literals
  | and l r => l.literals ++ r.literals
  | unary _ _ x => ofOperand x
  | binary _ _ l r => ofOperand l ++ ofOperand r
where
  ofOperand : Operand → List Value
    | .value v => [v]
    | .path .. => []

end Condition

/-! ### Equality

Two paths or conditions are equal when they are written alike, their literals being compared as
values. -/

mutual

def Selector.equal : Selector → Selector → Bool
  | .root i, .root j => i == j
  | .relative i, .relative j => i == j
  | .named ns d, .named ms e => ns == ms && d == e
  | .elements is, .elements js => is == js
  | .slice a b c, .slice a' b' c' => a == a' && b == b' && c == c'
  | .all d, .all e => d == e
  | .filter c d, .filter c' e => c.equal c' && d == e
  | _, _ => false

def Selector.equalLists : List Selector → List Selector → Bool
  | [], [] => true
  | s :: p, t :: q => s.equal t && Selector.equalLists p q
  | _, _ => false

def Operand.equal : Operand → Operand → Bool
  | .value v, .value w => v == w
  | .path p q, .path p' q' => Selector.equalLists p p' && q == q'
  | _, _ => false

def Condition.equal : Condition → Condition → Bool
  | .or l r, .or l' r' => l.equal l' && r.equal r'
  | .and l r, .and l' r' => l.equal l' && r.equal r'
  | .unary op n x, .unary op' n' x' => op == op' && n == n' && x.equal x'
  | .binary op n l r, .binary op' n' l' r' => op == op' && n == n' && l.equal l' && r.equal r'
  | _, _ => false

end

def Path.equal (p q : Path) : Bool := Selector.equalLists p q

end TreeQuery
