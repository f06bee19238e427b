import TreeQuery.Matching.Search
import TreeQuery.Operator.Basic
import TreeQuery.Path.Basic

/-! Prepared paths and conditions. Operators are looked up when a condition is prepared, so that
matching and testing always succeed. -/

namespace TreeQuery

/-- Where a path starts. -/
inductive Origin where
  /-- A position counted from the outermost scope. -/
  | root (index : Nat)
  /-- A position counted back from the current scope. -/
  | relative (index : Nat)
  deriving DecidableEq, Repr

/-- The entry of the scope stack at the origin, if there is one and it holds something. -/
def Origin.select (o : Origin) (scopes : Scopes) : Option Match :=
  let index? := match o with
    | root index => some index
    | relative index => if index < scopes.length then some (scopes.length - 1 - index) else none
  index?.bind fun i =>
    (scopes[i]?.filter Value.isPresent).map fun v => ⟨[.index i], v⟩

/-- The match a path starts from; none without an origin. -/
def Origin.start (o : Option Origin) (scopes : Scopes) : List Match :=
  (o.bind (·.select scopes)).toList

mutual

/-- A step from a value to values below it. -/
inductive Step where
  | named (names : List String) (deep : Bool)
  | elements (positions : List Int)
  | slice (start stop step : Option Int)
  | all (deep : Bool)
  | filter (test : Test) (deep : Bool)
  /-- Leads nowhere. -/
  | never

/-- A prepared operand. A path without origin never matches. -/
inductive Source where
  | literal (v : Value)
  | path (origin : Option Origin) (steps : List Step) (quantifier : Option Quantifier)

/-- A prepared condition. -/
inductive Test where
  | or (left right : Test)
  | and (left right : Test)
  | unary (op : Operator) (negate : Bool) (operand : Source)
  | binary (op : Operator) (negate : Bool) (left right : Source)

end

instance : Inhabited Step := ⟨.never⟩

/-- A prepared path. -/
structure Matcher where
  origin : Option Origin
  steps : List Step
  deriving Inhabited

/-- Whether the step can lead from one value to several. -/
def Step.isMulti : Step → Bool
  | named names deep => deep || 1 < names.length
  | elements positions => 1 < positions.length
  | slice .. => true
  | all _ => true
  | filter .. => true
  | never => false

/-- Whether the path can have several matches. -/
def Matcher.isMulti (m : Matcher) : Bool := m.steps.any Step.isMulti

/-- What an operand stands for on one stack of scopes. -/
inductive Resolved where
  | one (v : Value)
  /-- Every value of a quantified path. -/
  | each (q : Quantifier) (vs : List Value)

/-- Whether the values satisfy `p`, in the sense of the quantifier. -/
def Quantifier.holds (q : Quantifier) (p : Value → Bool) (vs : List Value) : Bool :=
  match q with
  | .some => vs.any p
  | .every => vs.all p

/-- Whether what an operand stands for satisfies `p`. -/
def Resolved.holds (r : Resolved) (p : Value → Bool) : Bool :=
  match r with
  | one v => p v
  | each q vs => q.holds p vs

mutual

/-- Searches for what a step leads to. -/
def Step.search : Step → Scopes → Value → Search → Search
  | .named names false, _, v, s => s.recordAll (Search.namedChildren names v)
  | .named names true, _, v, s => s.namedBelow names v
  | .elements positions, _, v, s => s.recordAll (Search.elements positions v)
  | .slice start stop step, _, v, s => s.recordAll (Search.slice start stop step v)
  | .all false, _, v, s => s.recordAll v.children
  | .all true, _, v, s => s.allBelow v
  | .filter test false, scopes, v, s => s.recordAll (Search.passing test.evaluate scopes v)
  | .filter test true, scopes, v, s => s.passingBelow test.evaluate scopes v
  | .never, _, _, s => s

/-- Follows the steps from each of some matches, one step after the other, until one of them
finds nothing. -/
def Step.follow : List Step → Scopes → List Match → List Match
  | [], _, ms => ms
  | step :: steps, scopes, ms =>
    let found := ms.foldl
      (fun found m => (step.search scopes m.value ⟨m.path, found⟩).found) #[]
    if found.isEmpty then [] else Step.follow steps scopes found.toList

/-- What an operand stands for: a literal itself; all values of a quantified path; the array of
all values of a path that can have several; the value of any other path, absent if it has none. -/
def Source.resolve : Source → Scopes → Resolved
  | .literal v, _ => .one v
  | .path origin steps quantifier, scopes =>
    let vs := (Step.follow steps scopes (Origin.start origin scopes)).map (·.value)
    match quantifier with
    | some q => .each q vs
    | none => .one (if steps.any Step.isMulti then .array vs else vs.headD .absent)

/-- Whether the condition holds. The quantifier of the left operand is the outer one, and
negation comes last. -/
def Test.evaluate : Test → Scopes → Bool
  | .or l r, scopes => l.evaluate scopes || r.evaluate scopes
  | .and l r, scopes => l.evaluate scopes && r.evaluate scopes
  | .unary op negate x, scopes => (x.resolve scopes).holds (fun v => op v none) != negate
  | .binary op negate l r, scopes =>
    let right := r.resolve scopes
    (l.resolve scopes).holds (fun v => right.holds fun w => op v (some w)) != negate

end

/-- Everything a step leads to from a value, with paths relative to it. -/
def Step.findAll (step : Step) (scopes : Scopes) (v : Value) : List Match :=
  (step.search scopes v .start).found.toList

namespace Matcher

/-- Every match of the path, in order. -/
def findAll (m : Matcher) (scopes : Scopes) : List Match :=
  Step.follow m.steps scopes (Origin.start m.origin scopes)

def values (m : Matcher) (scopes : Scopes) : List Value := (m.findAll scopes).map (·.value)

end Matcher

end TreeQuery
