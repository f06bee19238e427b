import TreeQuery.Decimal.Shortest

/-! How the digits of a floating point number are laid out as text: which magnitudes are written
positionally, and how the others show their exponent. -/

namespace TreeQuery.Decimal

/-- The choices that a written form of numbers makes. -/
structure Layout where
  /-- Leading digits from `10 ^ lowest` to `10 ^ highest` are written positionally. -/
  lowest : Int
  highest : Int
  /-- What follows a positional number without fraction. -/
  wholeMark : String
  exponentMark : String
  positiveSign : String

def zeros (n : Nat) : String := String.ofList (List.replicate n '0')

/-- Writes a decimal, digits as they are, by the choices of the layout. -/
def Layout.write (l : Layout) (d : Digits) : String :=
  let text := Nat.repr d.digits
  let count := text.length
  let leading := d.exponent + count - 1
  if l.lowest ≤ leading && leading ≤ l.highest then
    if leading < 0 then "0." ++ zeros (-leading - 1).toNat ++ text
    else
      let whole := leading.toNat + 1
      if count ≤ whole then text ++ zeros (whole - count) ++ l.wholeMark
      else (text.take whole).toString ++ "." ++ (text.drop whole).toString
  else
    let head := (text.take 1).toString
    let rest := (text.drop 1).toString
    let fraction := if rest.isEmpty then "" else "." ++ rest
    let power :=
      if leading < 0 then "-" ++ Nat.repr (-leading).toNat
      else l.positiveSign ++ Nat.repr leading.toNat
    head ++ fraction ++ l.exponentMark ++ power

end TreeQuery.Decimal
