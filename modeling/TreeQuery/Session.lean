import TreeQuery.Query

/-! Sessions: a registry, a stack of scopes and a list of facts, with paths, conditions and rule
sets prepared under names of their own. What was prepared keeps the operators of its time. -/

namespace TreeQuery

structure Session where
  operators : Registry
  scopes : Scopes
  facts : List Fact
  matchers : List (String × Matcher)
  tests : List (String × Test)
  ruleSets : List (String × RuleSet)

namespace Session

def start (operators : Registry) : Session := ⟨operators, [], [], [], [], []⟩

/-- Makes a value the current scope. -/
def push (s : Session) (v : Value) : Session := { s with scopes := s.scopes ++ [v] }

/-- Takes the current scope off the stack. -/
def pop (s : Session) : Option Value × Session :=
  (s.scopes.getLast?, { s with scopes := s.scopes.dropLast })

/-- The document that rules run over: the current scope, or nothing. -/
def source (s : Session) : Value := s.scopes.getLastD .absent

def addMatcher (s : Session) (id : String) (p : Path) : Logged QueryError (Matcher × Session) := do
  let m ← p.prepare s.operators
  return (m, { s with matchers := (id, m) :: s.matchers })

def addTest (s : Session) (id : String) (c : Condition) : Logged QueryError Session := do
  let t ← c.prepare s.operators
  return { s with tests := (id, t) :: s.tests }

def addRuleSet (s : Session) (id : String) (rules : RuleSet) : Session :=
  { s with ruleSets := (id, rules) :: s.ruleSets }

/-- The matches of a prepared path, if there is one of that name. -/
def findAll? (s : Session) (id : String) : Option (List Match) :=
  (s.matchers.lookup id).map (·.findAll s.scopes)

/-- Whether a prepared condition holds, if there is one of that name. -/
def holds? (s : Session) (id : String) : Option Bool :=
  (s.tests.lookup id).map (·.evaluate s.scopes)

/-- Adds what a rule set derives from the facts so far; the new facts, and what was reported. -/
def derive? (s : Session) (id : String) : Option (List Fact × List Log.Record × Session) :=
  (s.ruleSets.lookup id).map fun rules =>
    let facts := rules.derive s.source s.facts
    (facts.drop s.facts.length, rules.reports s.source s.facts, { s with facts := facts })

end Session

end TreeQuery
