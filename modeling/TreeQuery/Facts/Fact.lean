import TreeQuery.Location

/-! Facts and the guards that ask for them. A fact is recorded at one location, and its extent
says at which other locations it can be seen. -/

namespace TreeQuery

/-- How far a fact reaches beyond its own location. -/
inductive Extent where
  /-- It holds for everything below its location, too. -/
  | ancestors
  /-- It can be seen from every location above its own, too. -/
  | descendants
  deriving DecidableEq, Repr

/-- A named conclusion about the value at a location. -/
structure Fact where
  name : String
  context : Location
  extent : Option Extent
  deriving DecidableEq, Repr

/-- Whether the fact applies at a location. -/
def Fact.covers (f : Fact) (place : Location) : Bool :=
  match f.extent with
  | some .descendants => f.context.extends? place
  | some .ancestors => place.extends? f.context
  | none => f.context == place

/-- A condition on the facts known so far: some fact of that name covers a location, or none. -/
structure Guard where
  name : String
  negate : Bool
  deriving DecidableEq, Repr

namespace Guard

def requires (name : String) : Guard := ⟨name, false⟩

def excludes (name : String) : Guard := ⟨name, true⟩

def isSatisfied (g : Guard) (facts : List Fact) (place : Location) : Bool :=
  (facts.any fun f => f.name == g.name && f.covers place) != g.negate

end Guard

end TreeQuery
