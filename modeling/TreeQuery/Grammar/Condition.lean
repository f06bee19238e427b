import TreeQuery.Grammar.Path

/-! The text form of conditions. Conjunction binds tighter than disjunction, both group to the
left, and negation applies to what follows it up to the next connective. -/

namespace TreeQuery.Grammar

def quantifier : Parser Quantifier :=
  oneOf [
    do keyword ['s', 'o', 'm', 'e']; return .some,
    do keyword ['e', 'v', 'e', 'r', 'y']; return .every]

section

variable (condition : Parser Condition)

def operandPath : Parser Path := oneOf [path condition, dotPath condition]

def operand : Parser Operand :=
  oneOf [
    do
      let q ← quantifier
      let _ ← run1 isSpace .mark
      return .path (← operandPath condition) (some q),
    do return .path (← operandPath condition) none,
    do return .value (← literal)]

/-- An operator after its operand, and perhaps another operand. -/
def predicate : Parser Condition := do
  let left ← operand condition
  spaces
  let op ← operatorName
  let right? ← optional (do spaces; operand condition)
  return match right? with
    | some right => .binary op false left right
    | none => .unary op false left

end

section

variable (atom : Parser Condition)

def conjunction : Parser Condition := do
  let first ← atom
  let rest ← many (do spaced (keyword ['a', 'n', 'd']); atom)
  return rest.foldl .and first

def disjunction : Parser Condition := do
  let first ← conjunction atom
  let rest ← many (do spaced (keyword ['o', 'r']); conjunction atom)
  return rest.foldl .or first

end

/-- A negated atom, a condition in parentheses, or a predicate, with blanks around it. Atoms may
be nested `depth` times in one another. -/
def atom (depth : Nat) : List Char → Except Failure (Condition × List Char) :=
  match depth with
  | 0 => fail .operand
  | depth + 1 => fun cs =>
    spaced (oneOf [
      do
        keyword ['n', 'o', 't']
        spaces
        let c ← (atom depth : Parser Condition)
        return c.negated,
      between ['('] (spaced (disjunction (atom depth))) [')'],
      predicate (disjunction (atom depth))]) cs

/-- A condition whose atoms are nested at most `depth` times. -/
def conditionAt (depth : Nat) : Parser Condition := disjunction (atom depth)

/-- A condition. Every nested atom takes a character of the text, so the text is deep enough. -/
def condition : Parser Condition := fun cs => conditionAt (cs.length + 1) cs

end TreeQuery.Grammar
