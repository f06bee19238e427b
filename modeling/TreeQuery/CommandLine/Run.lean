import TreeQuery.CommandLine.Arguments
import TreeQuery.Output

/-! Running a command. The inputs are read by whoever runs it, one at a time and only when
everything before has gone well. -/

namespace TreeQuery.CommandLine

inductive Input where
  | standard
  | file (name : String)
  deriving DecidableEq, Repr

/-- The file of that name, or else the standard input. -/
def Input.ofName : Option String → Input
  | some name => .file name
  | none => .standard

/-- What a command comes to. -/
structure Report where
  /-- False only for a test that does not hold. -/
  holds : Bool
  text : String

section

variable {m : Type → Type} [Monad m] {α β : Type}

/-- Goes on with an input, if all has gone well so far. -/
def withInput (read : Input → m (Option String)) (input : Input) (before : Logged Error α)
    (next : α → String → Logged Error β) : m (Logged Error β) :=
  match before.result with
  | .error e => pure ⟨before.records, .error e⟩
  | .ok _ => do
    let text? ← read input
    return before.bind fun a =>
      match text? with
      | some text => next a text
      | none => .fail .unavailable

def printed (holds : Bool) (text : String) : Report := ⟨holds, text ++ "\n"⟩

def selectText (path : String) (o : Output) (q : PreparedQuery) (text : String) :
    Logged Error Report := do
  let source ← Logged.ofExcept (readDocument text)
  let ms := q.findAll source
  Logged.note .info ("'" ++ path ++ "' matched " ++ toString ms.length ++ " values")
  return printed true (o.renderMatches ms)

def testText (p : Predicate) (text : String) : Logged Error Report := do
  let source ← Logged.ofExcept (readDocument text)
  let holds := p.holds source
  return printed holds (toString holds)

def deriveText (compact : Bool) (start : String × List Fact) (text : String) :
    Logged Error Report := do
  let source ← Logged.ofExcept (readDocument text)
  let facts ← deriveFacts start.1 source start.2
  Logged.note .info ("Derived " ++ toString facts.length ++ " facts")
  return printed true (Output.renderFacts ⟨compact, false⟩ facts)

/-- Runs a command, given a way to read inputs. -/
def Command.run (read : Input → m (Option String)) : Command → m (Logged Error Report)
  | .select path input withPaths compact =>
    withInput read (.ofName input) (Query.compile path .empty)
      (selectText path ⟨compact, withPaths⟩)
  | .test condition input =>
    withInput read (.ofName input) (Predicate.compile condition .empty) testText
  | .derive rules input facts compact => do
    let rules ← withInput read (.file rules) (pure ()) fun _ text => pure text
    let start ← match facts with
      | none => pure (rules.bind fun text => pure (text, []))
      | some name =>
        withInput read (.file name) rules fun rules text => do
          return (rules, ← Logged.ofExcept (readFacts text))
    withInput read (.ofName input) start (deriveText compact)

end

end TreeQuery.CommandLine
