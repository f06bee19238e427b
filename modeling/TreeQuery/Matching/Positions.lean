/-! Positions in an array, counted from either end. -/

namespace TreeQuery.Positions

/-- A position counted from the end when it is negative. -/
def fromEnd (length index : Int) : Int := if index < 0 then length + index else index

/-- The nearest number between `low` and `high`. -/
def clamp (low high i : Int) : Int := max low (min i high)

/-- `i`, `i + step`, … while below `bound`. -/
def upTo (bound step i : Int) : List Nat :=
  if 0 < step ∧ i < bound then i.toNat :: upTo bound step (i + step) else []
termination_by (bound - i).toNat

/-- `i`, `i + step`, … while above `bound`, for a negative step. -/
def downTo (bound step i : Int) : List Nat :=
  if step < 0 ∧ bound < i then i.toNat :: downTo bound step (i + step) else []
termination_by (i - bound).toNat

/-- The positions that a slice takes from an array, in the order in which it takes them. The
bounds default to the two ends of the array in the direction of the step; a step of zero takes
nothing. -/
def slice (length : Nat) (start stop step : Option Int) : List Nat :=
  let n : Int := length
  let step := step.getD 1
  if 0 < step then
    let low := clamp 0 n (fromEnd n (start.getD 0))
    let high := (stop.map fun i => clamp 0 n (fromEnd n i)).getD n
    upTo high step low
  else if step < 0 then
    let high := (start.map fun i => clamp (-1) (n - 1) (fromEnd n i)).getD (n - 1)
    let low := (stop.map fun i => clamp (-1) (n - 1) (fromEnd n i)).getD (-1)
    downTo low step high
  else []

/-- The position meant by a single index, if it is within the array. -/
def single? (length : Nat) (index : Int) : Option Nat :=
  let i := fromEnd length index
  if 0 ≤ i ∧ i < length then some i.toNat else none

end TreeQuery.Positions
