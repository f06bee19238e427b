import TreeQuery.Text.Quoted

/-! Parsers with ordered choice. A failed alternative gives way to the next one, which starts from
the same place; when all fail, the last one's failure stands. A failure that is committed gives
way to nothing. -/

namespace TreeQuery.Grammar

/-- What was being looked for when a parser failed. -/
inductive Cause where
  /-- A scope at the start of a path. -/
  | scope
  /-- Anything that can start an operand. -/
  | operand
  /-- The word of an operator. -/
  | word
  /-- A word or document that was found but is not allowed. -/
  | rejected
  /-- A number. -/
  | number
  /-- Punctuation. -/
  | mark
  /-- Progress in a repetition. -/
  | progress
  deriving DecidableEq, Repr

/-- The code by which messages name a cause. -/
def Cause.code : Cause → String
  | scope => "TakeWhile1"
  | operand => "Satisfy"
  | word => "Tag"
  | rejected => "Verify"
  | number => "Float"
  | mark => "Char"
  | progress => "Many0"

structure Failure where
  /-- What was left of the text. -/
  rest : List Char
  cause : Cause
  committed : Bool
  deriving DecidableEq, Repr

def Failure.message (f : Failure) : String :=
  let kind := if f.committed then "Failure" else "Error"
  "Parsing " ++ kind ++ ": Error \x7b input: " ++ Text.message f.rest ++ ", code: "
    ++ f.cause.code ++ " \x7d"

abbrev Parser (α : Type) := StateT (List Char) (Except Failure) α

variable {α β : Type}

def fail (cause : Cause) : Parser α := fun cs => .error ⟨cs, cause, false⟩

/-- The character `c`. -/
def char (c : Char) : Parser Unit := fun cs =>
  match cs with
  | d :: rest => if d = c then .ok ((), rest) else .error ⟨cs, .mark, false⟩
  | [] => .error ⟨cs, .mark, false⟩

/-- The characters of `word`, one after the other. -/
def tag (word : List Char) : Parser Unit := fun cs =>
  if word.isPrefixOf cs then .ok ((), cs.drop word.length) else .error ⟨cs, .mark, false⟩

/-- The longest run of characters that satisfy `p`. -/
def run (p : Char → Bool) : Parser (List Char) := fun cs =>
  .ok (cs.takeWhile p, cs.dropWhile p)

/-- A run of at least one character. -/
def run1 (p : Char → Bool) (cause : Cause) : Parser (List Char) := fun cs =>
  match cs.takeWhile p with
  | [] => .error ⟨cs, cause, false⟩
  | found => .ok (found, cs.dropWhile p)

/-- Succeeds, taking nothing, if the next character satisfies `p`. -/
def ahead (p : Char → Bool) (cause : Cause) : Parser Unit := fun cs =>
  if cs.head?.any p then .ok ((), cs) else .error ⟨cs, cause, false⟩

/-- Succeeds, taking nothing, unless the next character satisfies `p`. -/
def notAhead (p : Char → Bool) : Parser Unit := fun cs =>
  if cs.head?.any p then .error ⟨cs, .mark, false⟩ else .ok ((), cs)

/-- `p`, or else `q` from the same place. -/
def orElse (p q : Parser α) : Parser α := fun cs =>
  match p cs with
  | .error f => if f.committed then .error f else q cs
  | found => found

/-- The first alternative that succeeds. -/
def oneOf : List (Parser α) → Parser α
  | [] => fail .mark
  | [p] => p
  | p :: ps => orElse p (oneOf ps)

/-- `p` if it succeeds, otherwise nothing. -/
def optional (p : Parser α) : Parser (Option α) := fun cs =>
  match p cs with
  | .ok (a, rest) => .ok (some a, rest)
  | .error f => if f.committed then .error f else .ok (none, cs)

/-- Turns any failure of `p` into a committed one. -/
def committed (p : Parser α) : Parser α := fun cs =>
  match p cs with
  | .error f => .error ⟨f.rest, f.cause, true⟩
  | found => found

/-- Gives every failure of `p` the same cause, and the place where `p` started. -/
def named (cause : Cause) (p : Parser α) : Parser α := fun cs =>
  match p cs with
  | .error f => .error ⟨cs, cause, f.committed⟩
  | found => found

/-- `p` again and again, until it fails. Each round has to take something. -/
def many (p : Parser α) : Parser (List α) := fun cs =>
  match p cs with
  | .error f => if f.committed then .error f else .ok ([], cs)
  | .ok (a, rest) =>
    if rest.length < cs.length then
      match many p rest with
      | .error f => .error f
      | .ok (as, rest) => .ok (a :: as, rest)
    else .error ⟨cs, .progress, false⟩
termination_by cs => cs.length

/-- `p` at least once. -/
def many1 (p : Parser α) : Parser (List α) := do
  let a ← p
  let as ← many p
  return a :: as

/-- One `p` or more, with commas between them. A comma that no `p` follows is left alone. -/
def commaList (p : Parser α) : Parser (List α) := do
  let a ← p
  let as ← many (do char ','; p)
  return a :: as

def isSpace (c : Char) : Bool := c == ' ' || c == '\t' || c == '\r' || c == '\n'

def spaces : Parser Unit := do
  let _ ← run isSpace

/-- `p` with blanks around it. -/
def spaced (p : Parser α) : Parser α := do
  spaces
  let a ← p
  spaces
  return a

/-- `p` between two marks. -/
def between (opening : List Char) (p : Parser α) (closing : List Char) : Parser α := do
  tag opening
  let a ← p
  tag closing
  return a

end TreeQuery.Grammar
