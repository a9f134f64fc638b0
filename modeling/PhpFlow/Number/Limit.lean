import PhpFlow.Fault

/-!
# Limits on integers

Integers are exact and of any size, but only so many decimal digits are read or written.
-/
namespace PhpFlow.Number

/-- Decimal texts with more digits than this are not read as integers, nor are such integers written. -/
def digitLimit : Nat := 4300

/-- A number has at most `k` decimal digits. -/
def hasDigitsWithin : Nat → Nat → Bool
  | 0, _ => false
  | k + 1, n => n < 10 || hasDigitsWithin k (n / 10)

def isWritable (n : Int) : Bool := hasDigitsWithin digitLimit n.natAbs

def write (n : Int) : Except Fault String :=
  if isWritable n then .ok (toString n) else .error .tooLongToWrite

/-- The least and the greatest integer of 64 bits. -/
def minInt : Int := -9223372036854775808

def maxInt : Int := 9223372036854775807

def inRange (n : Int) : Bool := minInt ≤ n && n ≤ maxInt

end PhpFlow.Number
