import TreeQuery.Grammar.Condition

/-! Whole texts: a path or a condition with blanks around it and nothing left over. -/

namespace TreeQuery

/-- Why a path or condition cannot be used. -/
inductive QueryError where
  /-- The text is a path or condition up to `rest`. -/
  | leftOver (text : String) (rest : List Char)
  | unreadable (text : String) (failure : Grammar.Failure)
  | unknownOperator (name : String)
  deriving DecidableEq

namespace QueryError

def parseMessage (text detail : String) : String :=
  "Parse error in '" ++ text ++ "': " ++ detail

def message : QueryError → String
  | leftOver text rest =>
    parseMessage text
      ("Parser did not consume all input. Remainder: '" ++ String.ofList rest ++ "'")
  | unreadable text failure => parseMessage text failure.message
  | unknownOperator name => "Unknown operator '" ++ name ++ "'"

end QueryError

namespace Grammar

/-- Reads a whole text with a parser. -/
def readWhole {α : Type} (p : Parser α) (text : String) : Except QueryError α :=
  match spaced p text.toList with
  | .ok (a, []) => .ok a
  | .ok (_, rest) => .error (.leftOver text rest)
  | .error f => .error (.unreadable text f)

end Grammar

/-- The path that a text spells. -/
def Path.parse (text : String) : Except QueryError Path :=
  Grammar.readWhole (Grammar.path Grammar.condition) text

/-- The condition that a text spells. -/
def Condition.parse (text : String) : Except QueryError Condition :=
  Grammar.readWhole Grammar.condition text

end TreeQuery
