import TreeQuery.Decimal.Binary

/-! The shortest decimal that reads back as a given floating point number. A decimal reads back
when it lies between the number's two half-way points (themselves included when the mantissa is
even). For each count of digits the two decimals next to the number on that grid are tried, and
the first count with a hit wins: a grid that has any point in the interval has one of these two
in it. Of two hits the nearer is taken, of two equally near ones the even. -/

namespace TreeQuery.Decimal

/-- The decimal `digits · 10 ^ exponent`. -/
structure Digits where
  digits : Nat
  exponent : Int
  deriving DecidableEq, Repr

/-- A positive quantity and the reach of the decimals that read back as it, all over one
denominator. -/
structure Span where
  value : Nat
  above : Nat
  below : Nat
  denominator : Nat
  closed : Bool

def Binary.span (b : Binary) : Span :=
  let unit := Nat.pow 2 (b.exponent - 2).toNat
  { value := 4 * b.mantissa * unit
    above := 2 * unit
    below := if b.narrowBelow then unit else 2 * unit
    denominator := Nat.pow 2 (2 - b.exponent).toNat
    closed := b.mantissa % 2 == 0 }

/-- Rescales a span so that one unit is `10 ^ k`. -/
def Span.inUnitsOf (s : Span) (k : Int) : Span :=
  let up := Nat.pow 10 (-k).toNat
  { value := s.value * up
    above := s.above * up
    below := s.below * up
    denominator := s.denominator * Nat.pow 10 k.toNat
    closed := s.closed }

/-- Whether the whole number `n` lies within the span. -/
def Span.holds (s : Span) (n : Nat) : Bool :=
  let point := n * s.denominator
  let (low, high) := (s.value - s.below, s.value + s.above)
  if s.closed then low ≤ point && point ≤ high else low < point && point < high

/-- The better of the two whole numbers around the value of the span, if either lies in it. -/
def Span.nearest? (s : Span) : Option Nat :=
  let low := s.value / s.denominator
  let rest := s.value % s.denominator
  match s.holds low, s.holds (low + 1) with
  | true, false => some low
  | false, true => some (low + 1)
  | false, false => none
  | true, true =>
    if 2 * rest < s.denominator || (2 * rest == s.denominator && low % 2 == 0) then some low
    else some (low + 1)

/-- The greatest `e` with `10 ^ e` at most the value. The estimate from the binary lengths is
never too high and at most two too low. -/
def Span.decade (s : Span) : Int :=
  let length := (Nat.log2 s.value : Int) - Nat.log2 s.denominator
  let guess := (length * 30103).fdiv 100000 - 1
  let reached (e : Int) : Bool :=
    s.denominator * Nat.pow 10 e.toNat ≤ s.value * Nat.pow 10 (-e).toNat
  if reached (guess + 2) then guess + 2
  else if reached (guess + 1) then guess + 1
  else guess

/-- Moves the trailing zeros of the digits into the exponent, at most `fuel` of them. -/
def Digits.trim (d : Digits) : Nat → Digits
  | 0 => d
  | fuel + 1 =>
    if d.digits % 10 == 0 then Digits.trim ⟨d.digits / 10, d.exponent + 1⟩ fuel else d

/-- The shortest decimal that reads back as the magnitude of `b`. Seventeen digits always do. -/
def shortest (b : Binary) : Digits :=
  if b.mantissa = 0 then ⟨0, 0⟩
  else
    let span := b.span
    let top := span.decade
    let hit? := (List.range 17).findSome? fun (n : Nat) =>
      let k := top - n
      (span.inUnitsOf k).nearest?.map fun d => Digits.mk d k
    match hit? with
    | some d => d.trim 18
    | none => ⟨0, 0⟩

end TreeQuery.Decimal
