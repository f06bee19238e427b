import TreeQuery.Decimal.Reading
import TreeQuery.Grammar.Parser
import TreeQuery.Path.Printer

/-! The words of the query language: names, whole numbers, quoted texts and literals. -/

namespace TreeQuery.Grammar

def isDigit (c : Char) : Bool := Json.isDigit c

/-- The words that no operator may be called by. -/
def keywords : List String := ["and", "or", "not", "some", "every"]

def identifier : Parser String := do
  ahead isNameStart .word
  let cs ← run isNamePart
  return String.ofList cs

/-- The word `word`, unless it goes on. -/
def keyword (word : List Char) : Parser Unit := do
  tag word
  notAhead isNamePart

/-- A name of an operator. -/
def operatorName : Parser String := fun cs =>
  match identifier cs with
  | .ok (name, rest) =>
    if keywords.contains name then .error ⟨cs, .rejected, false⟩ else .ok (name, rest)
  | .error f => .error f

/-! ### Whole numbers -/

/-- The digits of a scope position, if there are any and they fit 64 bits. -/
def scopeIndex : Parser (Option Nat) :=
  optional fun cs =>
    match run1 isDigit .number cs with
    | .ok (ds, rest) =>
      let n := Json.digitsValue ds
      if Json.fitsUnsigned n then .ok (n, rest) else .error ⟨cs, .number, false⟩
    | .error f => .error f

/-- An optional sign; whether it is a minus. -/
def sign : Parser Bool :=
  oneOf [do char '-'; return true, do char '+'; return false, pure false]

/-- A whole number with an optional sign, within 64 signed bits. -/
def integer : Parser Int := fun cs => do
  let (negative, rest) ← sign cs
  let (ds, after) ← run1 isDigit .number rest
  let n : Int := Json.digitsValue ds
  let n := if negative then -n else n
  if Json.fitsSigned n then .ok (n, after) else .error ⟨rest, .number, false⟩

/-! ### Quoted texts -/

/-- A text between single quotes, in which nothing is escaped. -/
def plainText : Parser String := do
  char '\''
  let cs ← run (· != '\'')
  char '\''
  return String.ofList cs

/-- A text between double quotes, with the escapes of documents. -/
def documentText : Parser String := fun cs =>
  match cs with
  | '"' :: rest =>
    match Json.readText rest with
    | .ok (s, rest) => .ok (String.ofList s, rest)
    | .error _ => .error ⟨cs, .rejected, false⟩
  | _ => .error ⟨cs, .mark, false⟩

def quotedText : Parser String := oneOf [plainText, documentText]

/-! ### Literals -/

/-- An array, object or text, as in a document. -/
def documentLiteral : Parser Value := fun cs =>
  if cs.head?.any (fun c => c == '"' || c == '[' || c == '\x7b') then
    match Json.readPrefix cs with
    | .ok (j, rest) => .ok (Value.ofJson j, rest)
    | .error _ => .error ⟨cs, .rejected, false⟩
  else .error ⟨cs, .operand, false⟩

/-- The digits of a number on both sides of its point, of which one side may be empty. -/
def mantissa : Parser (List Char × List Char) :=
  oneOf [
    do
      let whole ← run1 isDigit .number
      let fraction ← optional (do char '.'; run isDigit)
      return (whole, fraction.getD []),
    do
      char '.'
      let fraction ← run1 isDigit .number
      return ([], fraction)]

/-- A power of ten. After the letter there has to be one. -/
def power : Parser Int := do
  oneOf [char 'e', char 'E']
  let negative ← sign
  let ds ← committed (run1 isDigit .number)
  let n : Int := Json.digitsValue ds
  return if negative then -n else n

/-- A number, rounded to the nearest floating point one. -/
def float : Parser Float := named .number do
  let negative ← sign
  let (whole, fraction) ← mantissa
  let exponent ← optional power
  let digits := Json.digitsValue (whole ++ fraction)
  let x := Decimal.nearest digits (exponent.getD 0 - fraction.length)
  return if negative then -x else x

def numberLiteral : Parser Value := do
  ahead (fun c => isDigit c || c == '-') .operand
  let x ← float
  return .number x

/-- A literal, which a backtick may introduce. -/
def literal : Parser Value := do
  let _ ← optional (char '\x60')
  oneOf [
    do keyword ['n', 'u', 'l', 'l']; return .null,
    do keyword ['t', 'r', 'u', 'e']; return .bool true,
    do keyword ['f', 'a', 'l', 's', 'e']; return .bool false,
    do return .string (← plainText),
    documentLiteral,
    numberLiteral]

end TreeQuery.Grammar
