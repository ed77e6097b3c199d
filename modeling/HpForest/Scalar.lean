/-!
# Number types

What the strategies and the error prediction ask of a number type: four operations, comparisons, the
reading of a degree, and integer powers by repeated squaring. Doubles and single floats round every
operation; rationals are exact. A conversion into another type can fail, though none does between
these three (`RoundsTo.Total`).
-/

namespace HpForest

/-- The operations on indicators. -/
class Scalar (N : Type) extends Add N, Sub N, Mul N, Div N where
  /-- Strictly less; false when one side is not a number. -/
  lt : N → N → Bool
  /-- Less or equal; false when one side is not a number. -/
  le : N → N → Bool
  /-- Numerical equality; a zero equals its negative. -/
  eq : N → N → Bool
  isFinite : N → Bool
  zero : N
  one : N
  /-- The value nearest to a degree; `none` if the degree is out of range. -/
  ofDegree? : UInt32 → Option N
  /-- The double by which a text reports the value. -/
  toFloat : N → Float

namespace Scalar

variable {N : Type} [Scalar N]

/-- `acc · x ^ m`. The binary digits of `m` are taken from the lowest, and `x` is squared between
two of them. -/
def mulPow (acc x : N) (m : Nat) : N :=
  let acc' := if m % 2 = 1 then acc * x else acc
  if m / 2 = 0 then acc' else mulPow acc' (x * x) (m / 2)
termination_by m
decreasing_by omega

/-- The integer power; a negative exponent inverts the power of its absolute value. -/
def powi (x : N) (n : Int) : N :=
  let p := mulPow one x n.natAbs
  if n < 0 then one / p else p

end Scalar

instance : Scalar Float where
  lt x y := x < y
  le x y := x ≤ y
  eq x y := Float.beq x y
  isFinite := Float.isFinite
  zero := 0
  one := 1
  ofDegree? d := some d.toFloat
  toFloat x := x

instance : Scalar Float32 where
  lt x y := x < y
  le x y := x ≤ y
  eq x y := Float32.beq x y
  isFinite := Float32.isFinite
  zero := 0
  one := 1
  ofDegree? d := some d.toFloat32
  toFloat := Float32.toFloat

instance : Scalar Rat where
  lt x y := x < y
  le x y := x ≤ y
  eq x y := x == y
  isFinite _ := true
  zero := 0
  one := 1
  ofDegree? d := some d.toNat
  toFloat r := Float.ofInt r.num / Float.ofNat r.den

/-- Values of `P` as values of `N`. Parameters are given in one type and indicators in another. -/
class RoundsTo (P N : Type) where
  /-- The nearest value; `none` if the type has none. -/
  round? : P → Option N

instance {N : Type} : RoundsTo N N := ⟨some⟩

/-- The nearest single float: what is too large becomes infinite, and what is not a number stays
so. -/
instance : RoundsTo Float Float32 := ⟨fun x => some x.toFloat32⟩

/-- No conversion fails, neither of a parameter nor of a degree. -/
class RoundsTo.Total (P N : Type) [Scalar N] [RoundsTo P N] : Prop where
  round?_isSome : ∀ x : P, (RoundsTo.round? x : Option N).isSome = true
  ofDegree?_isSome : ∀ d : UInt32, (Scalar.ofDegree? d : Option N).isSome = true

instance : RoundsTo.Total Float Float := ⟨fun _ => rfl, fun _ => rfl⟩

instance : RoundsTo.Total Float Float32 := ⟨fun _ => rfl, fun _ => rfl⟩

instance : RoundsTo.Total Rat Rat := ⟨fun _ => rfl, fun _ => rfl⟩

end HpForest
