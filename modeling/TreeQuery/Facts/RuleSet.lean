import TreeQuery.Facts.Rule

/-! Rule sets. The rules run once each, in order, and every rule sees what the ones before it
have concluded. -/

namespace TreeQuery

abbrev RuleSet := List PreparedRule

namespace RuleSet

def preparedText (rules : List PreparedRule) : String :=
  "Compiled rule set with " ++ toString rules.length ++ " rules"

/-- Prepares rules in order, with these operators and no others. -/
def prepare (ops : Registry) (rules : List Rule) : Logged RuleError RuleSet := do
  let prepared ← rules.mapM (Rule.prepare ops)
  Logged.note .debug (preparedText prepared)
  return prepared

/-- Prepares rules with the builtin operators, which `ops` may redefine. -/
def prepareWith (ops : Registry) (rules : List Rule) : Logged RuleError RuleSet :=
  prepare (Registry.builtin.merge ops) rules

/-- Reads all rules and then prepares them. -/
def ofTexts (ops : Registry) (texts : List RuleText) : Logged RuleError RuleSet := do
  let rules ← Logged.ofExcept (texts.mapM RuleText.read)
  prepareWith ops rules

/-- The initial facts, followed by what each rule in turn concludes from all facts so far. -/
def derive (rules : RuleSet) (source : Value) (initial : List Fact) : List Fact :=
  rules.foldl (fun facts r => facts ++ r.evaluate source facts) initial

/-- What the rules report while they derive. -/
def reports (rules : RuleSet) (source : Value) (initial : List Fact) : List Log.Record :=
  match rules with
  | [] => []
  | r :: rest =>
    r.report source initial :: reports rest source (initial ++ r.evaluate source initial)

end RuleSet

end TreeQuery
