import TreeQuery.Decimal.Layout
import TreeQuery.Json.Basic
import TreeQuery.Text.Quoted

/-! Documents as text, on one line or indented. -/

namespace TreeQuery.Json

/-- Floating point numbers are positional from `10 ^ -5` up to below `10 ^ 16`; otherwise the
exponent carries its sign. -/
def numberLayout : Decimal.Layout where
  lowest := -5
  highest := 15
  wholeMark := ".0"
  exponentMark := "e"
  positiveSign := "+"

/-- A floating point number with the fewest digits that read back as it. -/
def floatText (x : Float) : String :=
  match Decimal.Binary.ofFloat? x with
  | none => "null"
  | some b =>
    let sign := if b.negative then "-" else ""
    sign ++ numberLayout.write (Decimal.shortest b)

def Number.text : Number → String
  | .whole n => toString n
  | .float x => floatText x

mutual

/-- The document on one line, without blanks. -/
def compact : Json → String
  | null => "null"
  | bool true => "true"
  | bool false => "false"
  | number n => n.text
  | string s => Text.document s
  | array items => "[" ++ ",".intercalate (compactItems items) ++ "]"
  | object members => "\x7b" ++ ",".intercalate (compactMembers members) ++ "\x7d"

def compactItems : List Json → List String
  | [] => []
  | j :: rest => compact j :: compactItems rest

def compactMembers : List (String × Json) → List String
  | [] => []
  | (name, j) :: rest => (Text.document name ++ ":" ++ compact j) :: compactMembers rest

end

/-- The start of a line at a depth of nesting: two blanks for each level. -/
def newline (depth : Nat) : String :=
  "\n" ++ String.ofList (List.replicate (2 * depth) ' ')

/-- Encloses the lines of a container; an empty one stays on its line. -/
def enclose (opening closing : String) (depth : Nat) (lines : List String) : String :=
  if lines.isEmpty then opening ++ closing
  else
    let inner := newline (depth + 1)
    opening ++ inner ++ ("," ++ inner).intercalate lines ++ newline depth ++ closing

mutual

/-- The document over several lines, the way it stands `depth` levels deep. -/
def prettyAt (depth : Nat) : Json → String
  | array items => enclose "[" "]" depth (prettyItems depth items)
  | object members => enclose "\x7b" "\x7d" depth (prettyMembers depth members)
  | j => compact j

def prettyItems (depth : Nat) : List Json → List String
  | [] => []
  | j :: rest => prettyAt (depth + 1) j :: prettyItems depth rest

def prettyMembers (depth : Nat) : List (String × Json) → List String
  | [] => []
  | (name, j) :: rest =>
    (Text.document name ++ ": " ++ prettyAt (depth + 1) j) :: prettyMembers depth rest

end

def pretty (j : Json) : String := prettyAt 0 j

end TreeQuery.Json
