/-!
# The fewest digits that read back

A binary number `mantissa · 2 ^ scale` stands for every real that rounds to it. `shortest` picks, in
that interval, a decimal with the fewest digits, and of those the nearest; a decimal exactly between
two neighbours goes up. All arithmetic is exact, on natural numbers.
-/

namespace HpForest

/-- The number `digits · 10 ^ exponent`. -/
structure Decimal where
  digits : Nat
  exponent : Int
deriving DecidableEq, Repr

namespace Decimal

/-- Moves the zeros at the end of the digits, at most `fuel` of them, into the exponent. -/
def trim : Nat → Decimal → Decimal
  | 0, d => d
  | fuel + 1, d =>
    if d.digits ≠ 0 ∧ d.digits % 10 = 0 then trim fuel ⟨d.digits / 10, d.exponent + 1⟩ else d

/-- Number of decimal digits; zero has one. -/
def width (n : Nat) : Nat := (Nat.toDigits 10 n).length

end Decimal

/-- The reals that round to a binary number, in quarters of its last place: the number is
`4 · mantissa`, the ends lie half a place away, and below a power of two only a quarter away. -/
structure RoundingInterval where
  mantissa : Nat
  scale : Int
  /-- The neighbour below is at half the distance of the neighbour above. -/
  narrowBelow : Bool
deriving Repr

namespace RoundingInterval

/-- Numerator of `quarters · 2 ^ (scale - 2) / 10 ^ k` over the denominator `denominator k`. -/
def numerator (r : RoundingInterval) (k : Int) (quarters : Nat) : Nat :=
  quarters * Nat.pow 2 (r.scale - 2).toNat * Nat.pow 10 (-k).toNat

/-- The common denominator of everything measured in units of `10 ^ k`. -/
def denominator (r : RoundingInterval) (k : Int) : Nat :=
  Nat.pow 2 (2 - r.scale).toNat * Nat.pow 10 k.toNat

def middle (r : RoundingInterval) : Nat := 4 * r.mantissa

def lower (r : RoundingInterval) : Nat := 4 * r.mantissa - (if r.narrowBelow then 1 else 2)

def upper (r : RoundingInterval) : Nat := 4 * r.mantissa + 2

/-- Whether `c · 10 ^ k` rounds to the number. An end of the interval does so when the mantissa is
even. -/
def contains (r : RoundingInterval) (k : Int) (c : Nat) : Bool :=
  let x := c * r.denominator k
  let lo := r.numerator k r.lower
  let hi := r.numerator k r.upper
  if r.mantissa % 2 = 0 then decide (lo ≤ x ∧ x ≤ hi) else decide (lo < x ∧ x < hi)

/-- Exponent of the leading decimal digit of the number. -/
def leadingExponent (r : RoundingInterval) : Int :=
  let num := r.numerator 0 r.middle
  let den := r.denominator 0
  if den ≤ num then (Decimal.width (num / den) : Int) - 1
  else -(Decimal.width ((den - 1) / num) : Int)

/-- The multiple of `10 ^ k` that rounds to the number, if one of its two neighbours does; the
nearer if both do, and the upper one of two equally near. -/
def onGrid? (r : RoundingInterval) (k : Int) : Option Decimal :=
  let num := r.numerator k r.middle
  let den := r.denominator k
  let below := num / den
  let rest := num % den
  match r.contains k below, r.contains k (below + 1) with
  | true, false => some ⟨below, k⟩
  | false, true => some ⟨below + 1, k⟩
  | true, true => some ⟨if 2 * rest < den then below else below + 1, k⟩
  | false, false => none

/-- A decimal with the fewest digits that rounds to the number, on the first of `places` ever finer
grids that has one; without one, the digits on the finest grid. -/
def shortest (r : RoundingInterval) (places : Nat) : Decimal :=
  let top := r.leadingExponent
  let found := (List.range places).findSome? fun (n : Nat) => r.onGrid? (top - n)
  let finest := top - places
  let d := found.getD ⟨r.numerator finest r.middle / r.denominator finest, finest⟩
  d.trim (places + 1)

end RoundingInterval

end HpForest
