import TreeQuery.Facts.RuleSet
import TreeQuery.Form.Shape

/-! From texts to results: queries, predicates and rules over one document, which is the only
scope they see. Operators given by the caller come on top of the builtin ones. -/

namespace TreeQuery

/-- Why a request over texts fails. -/
inductive Error where
  | query (cause : QueryError)
  | rules (cause : RuleError)
  /-- An input cannot be read. -/
  | unavailable
  | document (fault : Json.Fault)
  deriving DecidableEq

def Error.message : Error → String
  | query cause => "Query failed: " ++ cause.message
  | rules cause => "Rules failed: " ++ cause.message
  | unavailable => "I/O error: the input cannot be read"
  | document .malformed => "Invalid JSON: the text is malformed"
  | document .truncated => "Invalid JSON: the text ends too early"
  | document .mismatch => "Invalid JSON: the document does not have the expected shape"

/-- A query as it was written, and the path it spells. -/
structure Query where
  text : String
  path : Path

/-- A query ready to be run. -/
structure PreparedQuery where
  text : String
  matcher : Matcher

namespace Query

def parse (text : String) : Except Error Query :=
  ((Path.parse text).map fun p => ⟨text, p⟩).mapError .query

def prepare (q : Query) (ops : Registry) : Logged Error PreparedQuery := do
  let matcher ← (q.path.prepare (Registry.builtin.merge ops)).mapError .query
  return ⟨q.text, matcher⟩

/-- Reads and prepares a query. -/
def compile (text : String) (ops : Registry) : Logged Error PreparedQuery := do
  let q ← Logged.ofExcept (parse text)
  q.prepare ops

end Query

namespace PreparedQuery

def findAll (q : PreparedQuery) (source : Value) : List Match := q.matcher.findAll [source]

def values (q : PreparedQuery) (source : Value) : List Value := q.matcher.values [source]

/-- The first value that the query selects. -/
def value? (q : PreparedQuery) (source : Value) : Option Value := (q.values source).head?

def isMulti (q : PreparedQuery) : Bool := q.matcher.isMulti

end PreparedQuery

/-- A predicate ready to be tested. -/
structure Predicate where
  text : String
  test : Test

namespace Predicate

def parse (text : String) : Except Error Condition := (Condition.parse text).mapError .query

def compile (text : String) (ops : Registry) : Logged Error Predicate := do
  let c ← Logged.ofExcept (parse text)
  let test ← (c.prepare (Registry.builtin.merge ops)).mapError .query
  return ⟨text, test⟩

def holds (p : Predicate) (source : Value) : Bool := p.test.evaluate [source]

end Predicate

/-- Reads a document. -/
def readDocument (text : String) : Except Error Value := (Value.ofText text).mapError .document

/-- Reads a list of facts. -/
def readFacts (text : String) : Except Error (List Fact) :=
  (Form.readText (.list .fact) (Form.list? Fact.ofJson?) text).mapError .document

/-- Reads a list of rules as they are written. -/
def readRules (text : String) : Except Error (List RuleText) :=
  (Form.readText (.list .ruleText) (Form.list? RuleText.ofJson?) text).mapError .document

/-- Runs the rules in a text over a document. -/
def deriveFacts (rules : String) (source : Value) (initial : List Fact) :
    Logged Error (List Fact) := do
  let texts ← Logged.ofExcept (readRules rules)
  let prepared ← (RuleSet.ofTexts .empty texts).mapError .rules
  ⟨prepared.reports source initial, .ok (prepared.derive source initial)⟩

end TreeQuery
