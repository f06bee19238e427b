import TreeQuery.Json.Basic

/-! The words of a document text: blanks, fixed words, texts and numbers. A word can be read for
its content, or skimmed, when all that matters is where it ends. Skimming is the more lenient:
it passes over numbers out of range and over surrogate halves that stand alone. -/

namespace TreeQuery.Json

/-- Why a text is no document, or no document of the expected shape. -/
inductive Fault where
  /-- The text breaks the rules of documents, or exceeds their limits. -/
  | malformed
  /-- The text ends too early. -/
  | truncated
  /-- The document does not have the expected shape. -/
  | mismatch
  deriving DecidableEq, Repr

def isBlank (c : Char) : Bool := c == ' ' || c == '\t' || c == '\n' || c == '\r'

def skipBlanks (cs : List Char) : List Char := cs.dropWhile isBlank

/-- Reads the fixed word `word`, one character at a time. -/
def fixedWord : List Char → List Char → Except Fault (List Char)
  | [], rest => .ok rest
  | _ :: _, [] => .error .truncated
  | w :: word, c :: cs => if w == c then fixedWord word cs else .error .malformed

/-! ### Texts -/

def hexValue? (c : Char) : Option Nat :=
  if '0' ≤ c && c ≤ '9' then some (c.toNat - 48)
  else if 'a' ≤ c && c ≤ 'f' then some (c.toNat - 87)
  else if 'A' ≤ c && c ≤ 'F' then some (c.toNat - 55)
  else none

/-- The code unit in the four hexadecimal digits that start `cs`. A text with fewer than four
bytes left is truncated rather than malformed. -/
def codeUnit (cs : List Char) : Except Fault Nat :=
  match cs with
  | a :: b :: c :: d :: _ =>
    match hexValue? a, hexValue? b, hexValue? c, hexValue? d with
    | some a, some b, some c, some d => .ok (((a * 16 + b) * 16 + c) * 16 + d)
    | _, _, _, _ => .error .malformed
  | _ =>
    if (String.ofList cs).utf8ByteSize < 4 then .error .truncated else .error .malformed

/-- The character that `cs`, which follows a `\u`, stands for, and how many characters it takes:
four digits, or ten when the digits are the first half of a surrogate pair. -/
def escapedChar (cs : List Char) : Except Fault (Char × Nat) :=
  match codeUnit cs with
  | .error f => .error f
  | .ok high =>
    if high < 0xD800 || 0xDFFF < high then .ok (Char.ofNat high, 4)
    else if 0xDC00 ≤ high then .error .malformed
    else
      match cs.drop 4 with
      | [] => .error .truncated
      | '\\' :: [] => .error .truncated
      | '\\' :: 'u' :: rest =>
        match codeUnit rest with
        | .error f => .error f
        | .ok low =>
          if 0xDC00 ≤ low && low ≤ 0xDFFF then
            .ok (Char.ofNat (0x10000 + (high - 0xD800) * 0x400 + (low - 0xDC00)), 10)
          else .error .malformed
      | _ => .error .malformed

/-- The characters with an escape of their own. -/
def shortEscape? : Char → Option Char
  | '"' => some '"'
  | '\\' => some '\\'
  | '/' => some '/'
  | 'b' => some '\x08'
  | 'f' => some '\x0c'
  | 'n' => some '\n'
  | 'r' => some '\r'
  | 't' => some '\t'
  | _ => none

def isControl (c : Char) : Bool := c.toNat < 32

/-- Reads a text up to its closing quote, the opening one being behind it. -/
def readText : List Char → Except Fault (List Char × List Char)
  | [] => .error .truncated
  | '"' :: rest => .ok ([], rest)
  | '\\' :: [] => .error .truncated
  | '\\' :: 'u' :: rest =>
    match escapedChar rest with
    | .error f => .error f
    | .ok (c, taken) => (readText (rest.drop taken)).map fun (s, r) => (c :: s, r)
  | '\\' :: e :: rest =>
    match shortEscape? e with
    | none => .error .malformed
    | some c => (readText rest).map fun (s, r) => (c :: s, r)
  | c :: rest =>
    if isControl c then .error .malformed
    else (readText rest).map fun (s, r) => (c :: s, r)
termination_by cs => cs.length
decreasing_by all_goals (simp only [List.length_cons, List.length_drop]; omega)

/-- Skims a text up to its closing quote. -/
def skimText : List Char → Except Fault (List Char)
  | [] => .error .truncated
  | '"' :: rest => .ok rest
  | '\\' :: [] => .error .truncated
  | '\\' :: 'u' :: rest =>
    match codeUnit rest with
    | .error f => .error f
    | .ok _ => skimText (rest.drop 4)
  | '\\' :: e :: rest => if (shortEscape? e).isSome then skimText rest else .error .malformed
  | c :: rest => if isControl c then .error .malformed else skimText rest
termination_by cs => cs.length
decreasing_by all_goals (simp only [List.length_cons, List.length_drop]; omega)

/-! ### Numbers -/

def isDigit (c : Char) : Bool := '0' ≤ c && c ≤ '9'

def digitValue (c : Char) : Nat := c.toNat - 48

/-- The whole number that a run of digits stands for. -/
def digitsValue (ds : List Char) : Nat := ds.foldl (fun n d => n * 10 + digitValue d) 0

/-- A number as it is spelled. -/
structure Numeral where
  negative : Bool
  whole : List Char
  /-- The digits after the point, if there is a point. -/
  fraction : Option (List Char)
  /-- Whether the exponent is negative, and its digits, if there is one. -/
  exponent : Option (Bool × List Char)

/-- One digit or more; what is missing tells a truncated text from a malformed one. -/
def digits1 (cs : List Char) : Except Fault (List Char × List Char) :=
  match cs.takeWhile isDigit with
  | [] => .error (if cs.isEmpty then .truncated else .malformed)
  | ds => .ok (ds, cs.dropWhile isDigit)

/-- The whole part: a zero that no digit follows, or digits that start with no zero. -/
def wholePart (cs : List Char) : Except Fault (List Char × List Char) :=
  match cs with
  | '0' :: rest => if rest.head?.any isDigit then .error .malformed else .ok (['0'], rest)
  | _ => digits1 cs

def fractionPart (cs : List Char) : Except Fault (Option (List Char) × List Char) :=
  match cs with
  | '.' :: rest => (digits1 rest).map fun (ds, r) => (some ds, r)
  | _ => .ok (none, cs)

def exponentPart (cs : List Char) : Except Fault (Option (Bool × List Char) × List Char) :=
  match cs with
  | e :: rest =>
    if e == 'e' || e == 'E' then
      let (negative, rest) := match rest with
        | '+' :: r => (false, r)
        | '-' :: r => (true, r)
        | r => (false, r)
      (digits1 rest).map fun (ds, r) => (some (negative, ds), r)
    else .ok (none, cs)
  | [] => .ok (none, cs)

def numeral (cs : List Char) : Except Fault (Numeral × List Char) := do
  let (negative, cs) := match cs with
    | '-' :: r => (true, r)
    | r => (false, r)
  let (whole, cs) ← wholePart cs
  let (fraction, cs) ← fractionPart cs
  let (exponent, cs) ← exponentPart cs
  return (⟨negative, whole, fraction, exponent⟩, cs)

/-- Takes digits into a significand as long as it fits; returns the digits left over. -/
def takeDigits (significand : Nat) : List Char → Nat × List Char
  | [] => (significand, [])
  | d :: ds =>
    let next := significand * 10 + digitValue d
    if next ≤ Decimal.significandLimit then takeDigits next ds else (significand, d :: ds)

/-- Exponents beyond this decide the number by themselves. -/
def greatestExponent : Nat := Nat.pow 2 31 - 1

/-- The floating point number of a numeral; `none` when it is out of range. Digits that do not
fit the significand only count towards the exponent when they belong to the whole part. -/
def Numeral.toFloat? (n : Numeral) : Option Float :=
  let (significand, dropped) := takeDigits 0 n.whole
  let fraction := n.fraction.getD []
  let (significand, ignored) := takeDigits significand fraction
  let point : Int := (dropped.length : Int) - (fraction.length - ignored.length : Nat)
  let magnitude? :=
    match n.exponent with
    | none => Decimal.scaled significand point
    | some (negative, ds) =>
      let e := digitsValue ds
      if greatestExponent < e then
        if significand != 0 && !negative then none else some 0
      else Decimal.scaled significand (if negative then point - e else point + e)
  magnitude?.map fun x => if n.negative then -x else x

/-- The number of a numeral: whole when it is spelled without point and exponent, fits 64 bits
and is not a negative zero. -/
def Numeral.number? (n : Numeral) : Option Number :=
  match n.fraction, n.exponent with
  | none, none =>
    let m := digitsValue n.whole
    if n.negative then
      if 0 < m && fitsSigned (-(m : Int)) then some (.whole (-(m : Int)))
      else n.toFloat?.map .float
    else if fitsUnsigned m then some (.whole m)
    else n.toFloat?.map .float
  | _, _ => n.toFloat?.map .float

end TreeQuery.Json
