/-! Floating point numbers as exact quantities: a finite number is `± mantissa · 2 ^ exponent`,
and every question about its digits or its integrality is asked of that integer pair. -/

namespace TreeQuery.Decimal

/-- A finite floating point number, `± mantissa · 2 ^ exponent`. -/
structure Binary where
  negative : Bool
  mantissa : Nat
  exponent : Int
  /-- The number is a power of two whose lower neighbour is only half as far away as its upper. -/
  narrowBelow : Bool
  deriving DecidableEq, Repr

/-- Reads the sign, exponent and fraction fields; `none` for infinities and NaN. -/
def Binary.ofFloat? (x : Float) : Option Binary :=
  let bits : Nat := x.toBits.toNat
  let negative := bits / Nat.pow 2 63 == 1
  let power : Nat := bits / Nat.pow 2 52 % Nat.pow 2 11
  let fraction : Nat := bits % Nat.pow 2 52
  if power = 2047 then none
  else if power = 0 then some ⟨negative, fraction, -1074, false⟩
  else some ⟨negative, fraction + Nat.pow 2 52, (power : Int) - 1075, fraction == 0 && power > 1⟩

/-- The whole number a floating point number stands for, if it is one. -/
def Binary.toInt? (b : Binary) : Option Int :=
  let magnitude? : Option Nat :=
    if 0 ≤ b.exponent then some (b.mantissa * Nat.pow 2 b.exponent.toNat)
    else
      let unit : Nat := Nat.pow 2 (-b.exponent).toNat
      if b.mantissa % unit = 0 then some (b.mantissa / unit) else none
  magnitude?.map fun n => if b.negative then -(n : Int) else (n : Int)

end TreeQuery.Decimal
