import TreeQuery.Facts.Rule
import TreeQuery.Form.Path

/-! Locations, facts, guards and rules as documents. A part that may be missing is left out when
there is nothing to say; the guards of a rule are always written. -/

namespace TreeQuery

open Form

/-! ### Locations -/

def Key.toJson : Key → Json
  | .index i => .nat i
  | .name s => .string s

def Key.ofJson? (j : Json) : Option Key :=
  match j with
  | .string s => some (.name s)
  | j => j.index?.map .index

def Location.toJson (p : Location) : Json := .array (p.map Key.toJson)

def Location.ofJson? (j : Json) : Option Location := list? Key.ofJson? j

/-! ### Facts and guards -/

def Extent.word : Extent → String
  | .ancestors => "ancestors"
  | .descendants => "descendants"

def Extent.toJson (e : Extent) : Json := .string e.word

def Extent.words : List (String × Extent) :=
  [("ancestors", .ancestors), ("descendants", .descendants)]

def Extent.ofJson? (j : Json) : Option Extent := word? Extent.words false j

/-- A member that is only written when there is something to write. -/
def Form.optionalMember (name : String) : Option Json → List (String × Json)
  | some j => [(name, j)]
  | none => []

def Fact.toJson (f : Fact) : Json :=
  .object ([("name", .string f.name), ("context", Location.toJson f.context)]
    ++ optionalMember "extent" (f.extent.map Extent.toJson))

def Fact.fields : List Field := [field "name", field "context", omissible "extent"]

def Fact.ofJson? (j : Json) : Option Fact := do
  match (← content? j).pick Fact.fields with
  | some [some name, some context, extent] =>
    return ⟨← name.string?, ← Location.ofJson? context, ← maybe? Extent.ofJson? extent⟩
  | _ => none

def Guard.toJson (g : Guard) : Json :=
  .object [("name", .string g.name), ("negate", .bool g.negate)]

/-- The switch of a guard may also be called `not`. -/
def Guard.fields : List Field := [field "name", ⟨["negate", "not"], true⟩]

def Guard.ofJson? (j : Json) : Option Guard := do
  match (← content? j).pick Guard.fields with
  | some [some name, negate] => return ⟨← name.string?, ← flag? negate⟩
  | _ => none

/-! ### Rules -/

def Rule.fields : List Field :=
  [field "name", field "context", omissible "extent", omissible "guards",
    omissible "expression"]

def Form.ruleJson (name : String) (context : Json) (extent : Option Extent)
    (guards : List Guard) (condition : Option Json) : Json :=
  .object ([("name", .string name), ("context", context)]
    ++ optionalMember "extent" (extent.map Extent.toJson)
    ++ [("guards", .array (guards.map Guard.toJson))]
    ++ optionalMember "expression" condition)

/-- A list that may be left out, but not be null. -/
def Form.guards? : Option Json → Option (List Guard)
  | none => some []
  | some j => list? Guard.ofJson? j

def Rule.toJson (r : Rule) : Json :=
  ruleJson r.name (Path.toJson r.context) r.extent r.guards (r.condition.map Condition.toJson)

def Rule.ofJson? (j : Json) : Option Rule := do
  match (← content? j).pick Rule.fields with
  | some [some name, some context, extent, guards, condition] =>
    return ⟨← name.string?, ← Path.ofJson? false context, ← maybe? Extent.ofJson? extent,
      ← guards? guards, ← maybe? (Condition.ofJson? false) condition⟩
  | _ => none

def RuleText.toJson (r : RuleText) : Json :=
  ruleJson r.name (.string r.context) r.extent r.guards (r.condition.map .string)

def RuleText.ofJson? (j : Json) : Option RuleText := do
  match (← content? j).pick Rule.fields with
  | some [some name, some context, extent, guards, condition] =>
    return ⟨← name.string?, ← context.string?, ← maybe? Extent.ofJson? extent,
      ← guards? guards, ← maybe? Json.string? condition⟩
  | _ => none

end TreeQuery
