import HpForest.Decimal.Shortest

/-!
# Plain text of a double

A double is written with the fewest digits that read back, in positional notation of any length and
never with an exponent. A whole number has no fraction; the sign of zero is kept.
-/

namespace HpForest

namespace Decimal

/-- Positional text: zeros up to the point, or a point within the digits. -/
def plain (d : Decimal) : String :=
  let digits := toString d.digits
  let places := (-d.exponent).toNat
  if places = 0 then digits ++ "".pushn '0' d.exponent.toNat
  else
    let padded := ("".pushn '0' (places + 1 - digits.length) ++ digits).toList
    let whole := padded.length - places
    String.ofList (padded.take whole ++ '.' :: padded.drop whole)

end Decimal

/-- The parts of a double's bits: sign, biased exponent and fraction. -/
structure DoubleBits where
  negative : Bool
  exponent : Nat
  fraction : Nat
deriving DecidableEq, Repr

namespace DoubleBits

def ofFloat (x : Float) : DoubleBits :=
  let bits := x.toBits
  ⟨bits >>> 63 == 1, (bits >>> 52 &&& 0x7ff).toNat, (bits &&& 0xfffffffffffff).toNat⟩

/-- What rounds to the double, for an exponent field below the one of infinity. Fraction zero stands
for a power of two, whose lower neighbour is near except at the smallest exponents. -/
def interval (b : DoubleBits) : RoundingInterval :=
  if b.exponent = 0 then ⟨b.fraction, -1074, false⟩
  else ⟨0x10000000000000 + b.fraction, b.exponent - 1075, b.fraction = 0 ∧ 1 < b.exponent⟩

end DoubleBits

/-- Plain text of a double: at most seventeen significant digits tell it from every other. -/
def plainText (x : Float) : String :=
  let b := DoubleBits.ofFloat x
  let sign := if b.negative then "-" else ""
  if b.exponent = 0x7ff then
    if b.fraction = 0 then sign ++ "inf" else "NaN"
  else if b.exponent = 0 ∧ b.fraction = 0 then sign ++ "0"
  else sign ++ (b.interval.shortest 17).plain

end HpForest
