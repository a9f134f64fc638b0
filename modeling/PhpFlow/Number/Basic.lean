import PhpFlow.Number.Double
import PhpFlow.Number.Limit

/-!
# Numbers

A number is an integer of any size or a double. Arithmetic on two integers is exact; a double on either
side makes both doubles, and fails if the integer is beyond the greatest double.
-/
namespace PhpFlow

inductive Number where
  | int (n : Int)
  | float (x : Float)

namespace Number

def toFloat : Number → Except Fault Float
  | int n =>
    match ofInt? n with
    | some x => .ok x
    | none => .error .integerTooLarge
  | float x => .ok x

/-- Equality as numbers: an integer and a double are compared exactly. -/
def equal : Number → Number → Bool
  | int m, int n => m == n
  | int n, float x => equalsInt x n
  | float x, int n => equalsInt x n
  | float x, float y => x == y

/-- Order as numbers, exact between an integer and a double; NaN is neither below nor above anything. -/
def less : Number → Number → Bool
  | int m, int n => m < n
  | int n, float x =>
    match truncate? x with
    | some t => n < t || (n = t && !isIntegral x && !isNegative x)
    | none => !x.isNaN && !isNegative x
  | float x, int n =>
    match truncate? x with
    | some t => t < n || (n = t && !isIntegral x && isNegative x)
    | none => !x.isNaN && isNegative x
  | float x, float y => x < y

def isZero (a : Number) : Bool := a.equal (int 0)

def lift (onInts : Int → Int → Int) (onFloats : Float → Float → Float) :
    Number → Number → Except Fault Number
  | int m, int n => .ok (int (onInts m n))
  | a, b => do
    let x ← a.toFloat
    let y ← b.toFloat
    return float (onFloats x y)

def add : Number → Number → Except Fault Number := lift (· + ·) (· + ·)

def sub : Number → Number → Except Fault Number := lift (· - ·) (· - ·)

def mul : Number → Number → Except Fault Number := lift (· * ·) (· * ·)

/-- The divisor is not zero. An integer quotient stays an integer; any other is a double. -/
def div : Number → Number → Except Fault Number
  | int m, int n =>
    if m % n = 0 then .ok (int (m / n))
    else
      match quotient? m n with
      | some x => .ok (float x)
      | none => .error .quotientTooLarge
  | a, b => do
    let x ← a.toFloat
    let y ← b.toFloat
    return float (x / y)

def neg : Number → Number
  | int n => int (-n)
  | float x => float (-x)

/-- The exponent is an odd integer. -/
def isOdd (y : Float) : Bool :=
  match truncate? y with
  | some n => isIntegral y && n % 2 != 0
  | none => false

/-- The power of two doubles. There is none if it would be beyond the greatest double, nor for zero to a
negative exponent; a negative base has no real power to a fractional exponent, which gives NaN. -/
def powFloat (x y : Float) : Option Float :=
  if y == 0.0 then some 1.0
  else if x.isNaN then some x
  else if y.isNaN then some (if x == 1.0 then 1.0 else y)
  else if y.isInf then
    let a := x.abs
    if a == 1.0 then some 1.0
    else if (y > 0.0) == (a > 1.0) then some y.abs
    else some 0.0
  else if x.isInf then
    if y > 0.0 then some (if isOdd y then x else x.abs)
    else some (if isOdd y && isNegative x then -0.0 else 0.0)
  else if x == 0.0 then
    if y < 0.0 then none else some (if isOdd y then x else 0.0)
  else
    let p := Float.pow x.abs y
    if p.isInf then none
    else if isNegative x then
      if isIntegral y then some (if isOdd y then -p else p) else some (0.0 / 0.0)
    else some p

/-- Powers of integers are exact for exponents below 64, and for the bases -1, 0 and 1 always. -/
def pow : Number → Number → Option Number
  | int m, int n =>
    if 0 ≤ n && (m.natAbs ≤ 1 || n < 64) then
      let e := if m.natAbs ≤ 1 then n.toNat % 2 + (if n = 0 then 0 else 2) else n.toNat
      some (int (Int.pow m e))
    else
      match ofInt? m, ofInt? n with
      | some x, some y => (powFloat x y).map float
      | _, _ => none
  | int m, float y => (ofInt? m).bind fun x => (powFloat x y).map float
  | float x, int n => (ofInt? n).bind fun y => (powFloat x y).map float
  | float x, float y => (powFloat x y).map float

end Number

end PhpFlow
