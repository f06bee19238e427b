import TreeQuery.Facts.Fact
import TreeQuery.Matching.Prepare

/-! Rules: a rule concludes a fact at every match of its context that passes its guards and its
condition. The condition sees the matched value as its only scope. -/

namespace TreeQuery

/-- A rule with its path and condition read. -/
structure Rule where
  name : String
  context : Path
  extent : Option Extent
  guards : List Guard
  condition : Option Condition

/-- A rule as it is written. -/
structure RuleText where
  name : String
  context : String
  extent : Option Extent
  guards : List Guard
  condition : Option String
  deriving DecidableEq, Repr

/-- Why a rule cannot be used. -/
inductive RuleError where
  | unprepared (rule : String) (cause : QueryError)
  | unreadable (rule : String) (cause : QueryError)
  deriving DecidableEq

namespace RuleError

/-- The name of the rule at fault. -/
def rule : RuleError → String
  | unprepared rule _ => rule
  | unreadable rule _ => rule

def message : RuleError → String
  | unprepared rule cause => "Failed to compile rule '" ++ rule ++ "': " ++ cause.message
  | unreadable rule cause => "Failed to parse rule '" ++ rule ++ "': " ++ cause.message

end RuleError

/-- Reads the path and then the condition of a rule. -/
def RuleText.read (r : RuleText) : Except RuleError Rule := do
  let context ← (Path.parse r.context).mapError (.unreadable r.name)
  let condition ← match r.condition with
    | none => pure none
    | some text => some <$> (Condition.parse text).mapError (.unreadable r.name)
  return ⟨r.name, context, r.extent, r.guards, condition⟩

/-- A rule ready to be run. -/
structure PreparedRule where
  name : String
  extent : Option Extent
  context : Matcher
  guards : List Guard
  test : Option Test

/-- Prepares the context and then the condition. -/
def Rule.prepare (ops : Registry) (r : Rule) : Logged RuleError PreparedRule := do
  let context ← (r.context.prepare ops).mapError (.unprepared r.name)
  let test ← match r.condition with
    | none => pure none
    | some c => some <$> (c.prepare ops).mapError (.unprepared r.name)
  return ⟨r.name, r.extent, context, r.guards, test⟩

namespace PreparedRule

/-- Whether the rule concludes its fact at a match, given the facts known so far. -/
def concludes (r : PreparedRule) (facts : List Fact) (m : Match) : Bool :=
  r.guards.all (·.isSatisfied facts m.path) && r.test.all (·.evaluate [m.value])

/-- The matches that the rule looks at. -/
def candidates (r : PreparedRule) (source : Value) : List Match := r.context.findAll [source]

/-- The facts that the rule concludes from a document, in the order of its matches. -/
def evaluate (r : PreparedRule) (source : Value) (facts : List Fact) : List Fact :=
  ((r.candidates source).filter (r.concludes facts)).map fun m => ⟨r.name, m.path, r.extent⟩

/-- What one run of the rule reports. -/
def report (r : PreparedRule) (source : Value) (facts : List Fact) : Log.Record where
  level := .trace
  text := "Rule '" ++ r.name ++ "' considered " ++ toString (r.candidates source).length
    ++ " matches and derived " ++ toString (r.evaluate source facts).length ++ " facts"

end PreparedRule

end TreeQuery
