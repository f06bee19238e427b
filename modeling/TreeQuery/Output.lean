import TreeQuery.Query

/-! Results as text. -/

namespace TreeQuery

def Match.toJson (m : Match) : Json :=
  .object [("path", Location.toJson m.path), ("value", m.value.toJson)]

/-- How results are written. -/
structure Output where
  /-- On one line rather than indented. -/
  compact : Bool
  /-- With the location of each value. -/
  withPaths : Bool

namespace Output

def render (o : Output) (j : Json) : String := if o.compact then j.compact else j.pretty

def matchesJson (o : Output) (ms : List Match) : Json :=
  .array (if o.withPaths then ms.map Match.toJson else ms.map (·.value.toJson))

def renderMatches (o : Output) (ms : List Match) : String := o.render (o.matchesJson ms)

def renderFacts (o : Output) (facts : List Fact) : String :=
  o.render (.array (facts.map Fact.toJson))

end Output

end TreeQuery
