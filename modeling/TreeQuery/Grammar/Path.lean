import TreeQuery.Grammar.Literal

/-! The text form of paths. The parsers here take the parser of the conditions inside filters as
an argument, so they make no statement about how deep paths and conditions are nested. -/

namespace TreeQuery.Grammar

/-- `$` or `@` with an optional position, or carets, each of which goes out by one scope. -/
def scope : Parser Selector :=
  oneOf [
    do char '$'; return .root ((← scopeIndex).getD 0),
    do char '@'; return .relative ((← scopeIndex).getD 0),
    do return .relative (← run1 (· == '^') .scope).length]

def nameList : Parser (List String) := commaList (spaced quotedText)

def positionList : Parser (List Int) := commaList (spaced integer)

/-- `start:stop:step`, where each part and the second colon may be left out. -/
def slice : Parser Selector := do
  let start ← optional (spaced integer)
  char ':'
  let stop ← optional (spaced integer)
  let step ← optional (do char ':'; optional (spaced integer))
  return .slice start stop step.join

variable (condition : Parser Condition)

/-- `[? condition]` -/
def filterBody : Parser Condition := between ['[', '?'] (spaced condition) [']']

/-- What follows two dots. -/
def deepSelector : Parser Selector := do
  tag ['.', '.']
  oneOf [
    do char '*'; return .all true,
    do return .filter (← filterBody condition) true,
    do return .named [← identifier] true,
    do return .named (← between ['['] nameList [']']) true]

/-- What follows one dot. -/
def dotSelector : Parser Selector := do
  char '.'
  oneOf [
    do char '*'; return .all false,
    do return .named [← identifier] false]

def bracketSelector : Parser Selector :=
  oneOf [
    do return .filter (← between ['[', '[', '?'] (spaced condition) [']', ']']) true,
    do return .named (← between ['[', '['] nameList [']', ']']) true,
    do tag ['[', '*', '*', ']']; return .all true,
    do tag ['[', '*', ']']; return .all false,
    do return .filter (← filterBody condition) false,
    do return .named (← between ['['] nameList [']']) false,
    between ['['] slice [']'],
    do return .elements (← between ['['] positionList [']'])]

def selector : Parser Selector :=
  oneOf [deepSelector condition, dotSelector, bracketSelector condition]

def path : Parser Path := do
  let first ← scope
  let rest ← many (selector condition)
  return first :: rest

/-- A path that starts with a dot starts at the current scope. -/
def dotPath : Parser Path := do
  ahead (· == '.') .mark
  let rest ← many1 (selector condition)
  return .current :: rest

end TreeQuery.Grammar
