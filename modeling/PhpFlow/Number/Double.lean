/-!
# Doubles and exact numbers

A finite double is a dyadic number, and every ratio of naturals has a nearest double, a tie going to the
even one. Reading decimals, converting integers and dividing them are all this one rounding.
-/
namespace PhpFlow.Number

/-- The number `mantissa * 2 ^ exponent`. -/
structure Dyadic where
  mantissa : Nat
  exponent : Int
  deriving DecidableEq, Repr

def isNegative (x : Float) : Bool := x.toBits.toNat / Nat.pow 2 63 == 1

def magnitude (x : Float) : Dyadic :=
  let fraction : Nat := x.toBits.toNat % Nat.pow 2 52
  let biased : Nat := x.toBits.toNat / Nat.pow 2 52 % Nat.pow 2 11
  if biased = 0 then ⟨fraction, -1074⟩ else ⟨Nat.pow 2 52 + fraction, (biased : Int) - 1075⟩

/-- `a / b` to the nearest natural, a half to the even neighbour. -/
def roundDiv (a b : Nat) : Nat :=
  let q := a / b
  let r := a % b
  if b < 2 * r || (2 * r = b && q % 2 = 1) then q + 1 else q

/-- The exponent at which `n / d` has a mantissa of 53 bits, but none below that of the least double. -/
def scaleOf (n d : Nat) : Int :=
  let e : Int := (n.log2 : Int) - d.log2 - 53
  let e := if n * Nat.pow 2 (-(e + 53)).toNat ≥ d * Nat.pow 2 (e + 53).toNat then e + 1 else e
  max e (-1074)

def infinityBits : Nat := 0x7FF * Nat.pow 2 52

def nearestBits (n d : Nat) : Nat :=
  if n = 0 then 0
  else
    let e := scaleOf n d
    let m := roundDiv (n * Nat.pow 2 (-e).toNat) (d * Nat.pow 2 e.toNat)
    min ((e + 1074).toNat * Nat.pow 2 52 + m) infinityBits

/-- The double nearest to `n / d`, negated on demand; beyond the greatest double, infinity. -/
def nearest (negative : Bool) (n d : Nat) : Float :=
  Float.ofBits (UInt64.ofNat (nearestBits n d + if negative then Nat.pow 2 63 else 0))

/-- The double nearest to an integer, if it is finite. -/
def ofInt? (n : Int) : Option Float :=
  let x := nearest (n < 0) n.natAbs 1
  if x.isInf then none else some x

def quotient? (a b : Int) : Option Float :=
  let x := nearest ((a < 0) != (b < 0)) a.natAbs b.natAbs
  if x.isInf then none else some x

def truncate? (x : Float) : Option Int :=
  if x.isFinite then
    let v := magnitude x
    let n : Nat := v.mantissa * Nat.pow 2 v.exponent.toNat / Nat.pow 2 (-v.exponent).toNat
    some (if isNegative x then -(n : Int) else n)
  else none

def isIntegral (x : Float) : Bool :=
  x.isFinite &&
    let v := magnitude x
    v.mantissa * Nat.pow 2 v.exponent.toNat % Nat.pow 2 (-v.exponent).toNat == 0

def equalsInt (x : Float) (n : Int) : Bool := isIntegral x && truncate? x == some n

end PhpFlow.Number
