import TreeQuery.Form.Facts
import TreeQuery.Json.Draft

/-! Reading a text as a document of a given shape. The text is gone through in order, and the
first problem decides, be it a breach of the rules of documents or of the shape; what a record
does not ask for is passed over. The result is a document without what was passed over. -/

namespace TreeQuery.Form

open Json (Draft Fault)

/-- What a text is expected to hold. -/
inductive Shape where
  /-- Any document. -/
  | any
  /-- A document that is read to its end before it is judged. -/
  | judged (accepts : Json → Bool)
  /-- A variant: its tag is judged where it stands, the rest at the end. -/
  | variant (tags : List String) (accepts : Json → Bool)
  | text
  | flag
  | word (words : List String)
  | maybe (shape : Shape)
  | list (shape : Shape)
  | record (fields : List (Field × Shape))

namespace Shape

def judge (accepts : Json → Bool) (j : Json) : Except Fault Json :=
  if accepts j then .ok j else .error .mismatch

/-- The problem with a value of the wrong kind: a container is refused as it opens, any other
value once it has been read. -/
def refuse : Draft → Fault
  | .flawed => .malformed
  | .cut _ f _ => f
  | _ => .mismatch

/-- Reads a word, or an object with a word as its only name and null under it. -/
def readWord (words : List String) : Draft → Except Fault Json
  | .string s => if words.contains s then .ok (.string s) else .error .mismatch
  | .flawed => .error .malformed
  | .cut none f _ => .error f
  | .cut (some c) f _ => .error (if c == '"' then f else .malformed)
  | .object tooDeep members ending =>
    if tooDeep then .error .malformed
    else
      match members with
      | [] => .error .malformed
      | (.missing .., d) :: _ => .error (refuse d)
      | (.flawed, _) :: _ => .error .malformed
      | (.text s, d) :: rest =>
        if words.contains s then
          match d with
          | .null =>
            match rest, ending with
            | [], none => .ok (.string s)
            | [], some f => .error f
            | _ :: _, _ => .error .malformed
          | d => .error (refuse d)
        else .error .mismatch
  | _ => .error .malformed

/-- Reads the tag of a variant. -/
def readTag (tags : List String) : Draft → Except Fault Json
  | .string s => if tags.contains s then .ok (.string s) else .error .mismatch
  | d => .error (refuse d)

/-- Reads the members of a variant, looking at tags as they come by. -/
def readTagged (tags : List String) (tagged : Bool) :
    List (Draft.Name × Draft) → Except Fault (List (String × Json))
  | [] => .ok []
  | (.missing f _, _) :: _ => .error f
  | (.flawed, _) :: _ => .error .malformed
  | (.text name, d) :: rest => do
    let isTag := name == "type"
    if isTag && tagged then throw .mismatch
    let j ← if isTag then readTag tags d else d.complete
    let members ← readTagged tags (tagged || isTag) rest
    return (name, j) :: members

def readVariant (tags : List String) (accepts : Json → Bool) : Draft → Except Fault Json
  | .object tooDeep members ending =>
    if tooDeep then .error .malformed
    else do
      let members ← readTagged tags false members
      let members ← Draft.close ending members
      judge accepts (.object members)
  | .array tooDeep items ending =>
    if tooDeep then .error .malformed
    else
      match items with
      | [] => .error (ending.getD .mismatch)
      | d :: rest => do
        let tag ← readTag tags d
        let items ← Draft.completeItems rest
        let items ← Draft.close ending (tag :: items)
        judge accepts (.array items)
  | d => .error (refuse d)

/-- The name that a field has in what is read. -/
def fieldName (f : Field) : String := f.names.headD ""

/-- Whether one of the fields that may not be left out has not been seen. -/
def lacks (fields : List (Field × Shape)) (seen : List (String × Json)) : Bool :=
  fields.any fun f => !f.1.omissible && !seen.any (·.1 == fieldName f.1)

mutual

/-- Reads a draft as a document of a shape, or finds the first problem on the way. -/
def read : Shape → Draft → Except Fault Json
  | any, d => d.complete
  | judged accepts, d => do judge accepts (← d.complete)
  | variant tags accepts, d => readVariant tags accepts d
  | text, d =>
    match d with
    | .string s => .ok (.string s)
    | d => .error (refuse d)
  | flag, d =>
    match d with
    | .bool b => .ok (.bool b)
    | d => .error (refuse d)
  | word words, d => readWord words d
  | maybe shape, d =>
    match d with
    | .null => .ok .null
    | .cut (some 'n') f _ => .error f
    | d => read shape d
  | list shape, d =>
    match d with
    | .array tooDeep items ending =>
      if tooDeep then .error .malformed
      else do
        let items ← items.mapM (read shape)
        Draft.close ending (.array items)
    | d => .error (refuse d)
  | record fields, d =>
    match d with
    | .object tooDeep members ending =>
      if tooDeep then .error .malformed
      else do
        let seen ← members.foldlM (readMember fields) []
        let seen ← Draft.close ending seen
        if lacks fields seen then .error .mismatch else .ok (.object seen)
    | .array tooDeep items ending =>
      if tooDeep then .error .malformed
      else do return .object (← readItems fields items ending)
    | d => .error (refuse d)

/-- Reads one member of a record: a field that was not there before, or else something to be
passed over. -/
def readMember : List (Field × Shape) → List (String × Json) → Draft.Name × Draft →
    Except Fault (List (String × Json))
  | _, _, (.missing f _, _) => .error f
  | _, _, (.flawed, _) => .error .malformed
  | [], seen, (.text _, d) =>
    match d.skim with
    | some f => .error f
    | none => .ok seen
  | (f, shape) :: fields, seen, (.text name, d) =>
    if f.names.contains name then
      if seen.any (·.1 == fieldName f) then .error .mismatch
      else do return seen ++ [(fieldName f, ← read shape d)]
    else readMember fields seen (.text name, d)

/-- Reads the items of a record in an array. -/
def readItems : List (Field × Shape) → List Draft → Option Fault →
    Except Fault (List (String × Json))
  | [], [], ending => Draft.close ending []
  | [], _ :: _, _ => .error .malformed
  | (f, _) :: fields, [], ending =>
    match ending with
    | some problem => .error problem
    | none => if f.omissible then readItems fields [] none else .error .mismatch
  | (f, shape) :: fields, d :: items, ending => do
    let j ← read shape d
    let rest ← readItems fields items ending
    return (fieldName f, j) :: rest

end

/-! ### The shapes of what is kept in documents -/

def key : Shape := judged fun j => (Key.ofJson? j).isSome

def location : Shape := list key

def extent : Shape := word (Extent.words.map (·.1))

def quantifier : Shape := word (Quantifier.words.map (·.1))

/-- A variant with these tags, accepted if it can be read. -/
def readable {α β : Type} (tags : List (String × α)) (read : Json → Option β) : Shape :=
  variant (tags.map (·.1)) fun j => (read j).isSome

def selector : Shape := readable Selector.tags (Selector.ofJson? false)

def operand : Shape := readable Operand.tags (Operand.ofJson? false)

def condition : Shape := readable Condition.tags (Condition.ofJson? false)

def path : Shape := list selector

def fact : Shape := record (Fact.fields.zip [text, location, maybe extent])

def guard : Shape := record (Guard.fields.zip [text, flag])

def rule : Shape :=
  record (Rule.fields.zip [text, path, maybe extent, list guard, maybe condition])

def ruleText : Shape :=
  record (Rule.fields.zip [text, text, maybe extent, list guard, maybe text])

end Shape

/-- What a text holds: a document of the shape, and what `read` makes of it. -/
def readText {α : Type} (shape : Shape) (read : Json → Option α) (text : String) :
    Except Fault α := do
  let (d, rest) := Draft.ofText text.toList
  let j ← shape.read d
  match read j with
  | some a => Json.expectEnd a rest
  | none => .error .mismatch

end TreeQuery.Form
