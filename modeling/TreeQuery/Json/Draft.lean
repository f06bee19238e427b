import TreeQuery.Json.Scan

/-! A document text read as far as it makes sense. A draft keeps what was wrong at the place where
it went wrong, so that a reader that walks the draft in order meets the same first problem as one
that walks the text, whether it keeps a part or only passes over it. -/

namespace TreeQuery.Json

/-- The name of a member, as far as there is one. -/
inductive Draft.Name where
  | text (s : String)
  /-- A text with a lone surrogate half: it can be passed over only. -/
  | flawed
  /-- No name, and the problem when the member is wanted and when it is to be passed over. The
  draft beside it is what stands in the place of the name. -/
  | missing (reading skimming : Fault)

/-- A document text, possibly broken off. -/
inductive Draft where
  | null
  | bool (b : Bool)
  | number (n : Number)
  | string (s : String)
  /-- A number out of range, or a text with a lone surrogate half: it can be passed over only. -/
  | flawed
  /-- The items, whether the array is nested too deeply to be kept, and what keeps it from being
  closed. -/
  | array (tooDeep : Bool) (items : List Draft) (ending : Option Fault)
  /-- As for arrays. -/
  | object (tooDeep : Bool) (members : List (Draft.Name × Draft)) (ending : Option Fault)
  /-- No value: the character found where one should start, and the problem when the value is
  wanted and when it is to be passed over. -/
  | cut (start : Option Char) (reading skimming : Fault)
  deriving Inhabited

/-- How many arrays and objects may be nested in one another in what is kept. -/
def greatestDepth : Nat := 127

namespace Draft

def ofNumber (c : Char) (cs : List Char) : Draft × List Char :=
  match numeral cs with
  | .error f => (cut (some c) f .malformed, [])
  | .ok (n, rest) =>
    match n.number? with
    | some n => (number n, rest)
    | none => (flawed, rest)

/-- The text whose opening quote is behind `cs`. -/
def ofQuoted (cs : List Char) : Draft × List Char :=
  match readText cs, skimText cs with
  | .ok (s, rest), _ => (string (String.ofList s), rest)
  | .error _, .ok rest => (flawed, rest)
  | .error f, .error g => (cut (some '"') f g, [])

def ofWord (c : Char) (word cs : List Char) (d : Draft) : Draft × List Char :=
  match fixedWord word cs with
  | .ok rest => (d, rest)
  | .error f => (cut (some c) f f, [])

mutual

/-- The value at the front of `cs`, `level` containers deep, and what follows it. Nothing follows
a value that is cut. Each call spends a unit of `fuel`, and no chain of calls is longer than twice
the text. -/
def value : (fuel level : Nat) → List Char → Draft × List Char
  | 0, _, _ => (cut none .malformed .malformed, [])
  | fuel + 1, level, cs =>
    match skipBlanks cs with
    | [] => (cut none .truncated .truncated, [])
    | c :: rest =>
      if c == '"' then ofQuoted rest
      else if c == '[' then
        let (items, ending, rest) :=
          match skipBlanks rest with
          | ']' :: after => ([], none, after)
          | [] => ([], some .truncated, [])
          | rest => items fuel (level + 1) rest
        (array (greatestDepth ≤ level) items ending, rest)
      else if c == '\x7b' then
        let (members, ending, rest) :=
          match skipBlanks rest with
          | '\x7d' :: after => ([], none, after)
          | rest => members fuel (level + 1) rest
        (object (greatestDepth ≤ level) members ending, rest)
      else if c == 'n' then ofWord c ['n', 'u', 'l', 'l'] (c :: rest) null
      else if c == 't' then ofWord c ['t', 'r', 'u', 'e'] (c :: rest) (bool true)
      else if c == 'f' then ofWord c ['f', 'a', 'l', 's', 'e'] (c :: rest) (bool false)
      else if c == '-' || isDigit c then ofNumber c (c :: rest)
      else (cut (some c) .malformed .malformed, [])

/-- One item or more, up to the closing bracket. -/
def items : (fuel level : Nat) → List Char → List Draft × Option Fault × List Char
  | 0, _, _ => ([], some .malformed, [])
  | fuel + 1, level, cs =>
    let (d, rest) := value fuel level cs
    match skipBlanks rest with
    | ']' :: rest => ([d], none, rest)
    | ',' :: rest =>
      let (ds, ending, rest) := items fuel level rest
      (d :: ds, ending, rest)
    | [] => ([d], some .truncated, [])
    | _ => ([d], some .malformed, [])

/-- One member or more, up to the closing brace. -/
def members : (fuel level : Nat) → List Char →
    List (Name × Draft) × Option Fault × List Char
  | 0, _, _ => ([], some .malformed, [])
  | fuel + 1, level, cs =>
    match skipBlanks cs with
    | [] =>
      ([(.missing .truncated .truncated, cut none .truncated .truncated)], some .truncated, [])
    | '"' :: rest =>
      match ofQuoted rest with
      | (cut c f g, _) => ([(.missing f g, cut c f g)], some f, [])
      | (name, rest) =>
        let name := match name with
          | string s => Name.text s
          | _ => Name.flawed
        let (d, rest) := match skipBlanks rest with
          | ':' :: rest => value fuel level rest
          | [] => (cut none .truncated .truncated, [])
          | c :: _ => (cut (some c) .malformed .malformed, [])
        match skipBlanks rest with
        | '\x7d' :: rest => ([(name, d)], none, rest)
        | ',' :: rest =>
          let (ms, ending, rest) := members fuel level rest
          ((name, d) :: ms, ending, rest)
        | [] => ([(name, d)], some .truncated, [])
        | _ => ([(name, d)], some .malformed, [])
    | rest =>
      ([(.missing .malformed .malformed, (value fuel level rest).1)], some .malformed, [])

end

/-- The draft of the value at the front of a text, and what follows it. -/
def ofText (cs : List Char) : Draft × List Char := value (2 * cs.length + 2) 0 cs

/-- Ends a container that was read to its last part. -/
def close {α : Type} (ending : Option Fault) (content : α) : Except Fault α :=
  match ending with
  | none => .ok content
  | some f => .error f

mutual

/-- The whole document, or the first problem on the way through it. -/
def complete : Draft → Except Fault Json
  | null => .ok .null
  | bool b => .ok (.bool b)
  | number n => .ok (.number n)
  | string s => .ok (.string s)
  | flawed => .error .malformed
  | cut _ f _ => .error f
  | array tooDeep items ending =>
    if tooDeep then .error .malformed
    else do
      let js ← completeItems items
      close ending (.array js)
  | object tooDeep members ending =>
    if tooDeep then .error .malformed
    else do
      let ms ← completeMembers members
      close ending (.object ms)

def completeItems : List Draft → Except Fault (List Json)
  | [] => .ok []
  | d :: rest => do
    let j ← complete d
    let js ← completeItems rest
    return j :: js

def completeMembers : List (Name × Draft) → Except Fault (List (String × Json))
  | [] => .ok []
  | (.missing f _, _) :: _ => .error f
  | (.flawed, _) :: _ => .error .malformed
  | (.text name, d) :: rest => do
    let j ← complete d
    let ms ← completeMembers rest
    return (name, j) :: ms

end

mutual

/-- Passes over a value; the first problem on the way, if there is one. -/
def skim : Draft → Option Fault
  | cut _ _ g => some g
  | array _ items ending => (skimItems items).or ending
  | object _ members ending => (skimMembers members).or ending
  | _ => none

def skimItems : List Draft → Option Fault
  | [] => none
  | d :: rest => (skim d).or (skimItems rest)

def skimMembers : List (Name × Draft) → Option Fault
  | [] => none
  | (.missing _ g, _) :: _ => some g
  | (_, d) :: rest => (skim d).or (skimMembers rest)

end

end Draft

/-- The document at the front of a text, and what follows it. -/
def readPrefix (cs : List Char) : Except Fault (Json × List Char) :=
  let (d, rest) := Draft.ofText cs
  d.complete.map fun j => (j, rest)

/-- Nothing but blanks may follow a document. -/
def expectEnd {α : Type} (content : α) (rest : List Char) : Except Fault α :=
  if (skipBlanks rest).isEmpty then .ok content else .error .malformed

/-- The document that a text holds. -/
def ofText (text : String) : Except Fault Json := do
  let (j, rest) ← readPrefix text.toList
  expectEnd j rest

end TreeQuery.Json
