/-! From written decimals to floating point numbers, in two ways: to the nearest one, as the
query language reads its own numerals, and by one scaling step from a 64-bit significand, as
documents are read. The second may be off by a unit in the last place when the significand does
not fit 53 bits, so the two must not be exchanged. -/

namespace TreeQuery.Decimal

/-- The number nearest to `digits · 10 ^ exponent`; beyond the finite range, an infinity. The
first two tests only keep the power of ten within reason: they decide what it would decide. -/
def nearest (digits : Nat) (exponent : Int) : Float :=
  let leading := exponent + (Nat.repr digits).length
  if digits = 0 || leading < -400 then 0
  else if 400 < leading then 1 / 0
  else if 0 ≤ exponent then Float.ofScientific digits false exponent.toNat
  else Float.ofScientific digits true (-exponent).toNat

/-- The largest significand kept while digits are read. -/
def significandLimit : Nat := Nat.pow 2 64 - 1

/-- The power of ten that one scaling step may use. -/
def greatestPower : Nat := 308

def powerOfTen (k : Nat) : Float := Float.ofScientific 1 false k

/-- Divides by `10 ^ k`, in steps that stay within the range of powers. -/
def scaleDown (x : Float) (k : Nat) : Float :=
  if k ≤ greatestPower then x / powerOfTen k
  else if x == 0 then x
  else scaleDown (x / powerOfTen greatestPower) (k - greatestPower)
termination_by k
decreasing_by simp only [greatestPower] at *; omega

/-- The significand times `10 ^ exponent`, rounded once for the significand and once for the
scaling; `none` when the result is too large for a finite number. -/
def scaled (significand : Nat) (exponent : Int) : Option Float :=
  let x := Float.ofNat significand
  if exponent < 0 then some (scaleDown x (-exponent).toNat)
  else if exponent.toNat ≤ greatestPower then
    let y := x * powerOfTen exponent.toNat
    if y.isInf then none else some y
  else if x == 0 then some x
  else none

end TreeQuery.Decimal
