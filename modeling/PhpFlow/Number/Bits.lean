/-!
# Bits of integers

An integer is read as an endless row of bits in two's complement; a negative one begins with ones.
-/
namespace PhpFlow.Number

def bitNot (n : Int) : Int := -n - 1

def bitAnd : Int → Int → Int
  | .ofNat m, .ofNat n => ((m &&& n : Nat) : Int)
  | .ofNat m, .negSucc n => ((m ^^^ (m &&& n) : Nat) : Int)
  | .negSucc m, .ofNat n => ((n ^^^ (n &&& m) : Nat) : Int)
  | .negSucc m, .negSucc n => .negSucc (m ||| n)

def bitOr (a b : Int) : Int := bitNot (bitAnd (bitNot a) (bitNot b))

def bitXor : Int → Int → Int
  | .ofNat m, .ofNat n => ((m ^^^ n : Nat) : Int)
  | .ofNat m, .negSucc n => .negSucc (m ^^^ n)
  | .negSucc m, .ofNat n => .negSucc (m ^^^ n)
  | .negSucc m, .negSucc n => ((m ^^^ n : Nat) : Int)

/-- Bits beyond the lowest 64 are lost, and the highest of those is the sign. -/
def shiftLeft (a : Int) (b : Nat) : Int := if 64 ≤ b then 0 else (a * (Nat.pow 2 b : Nat)).bmod (Nat.pow 2 64)

def shiftRight (a : Int) (b : Nat) : Int :=
  if 64 ≤ b then (if a < 0 then -1 else 0) else a / (Nat.pow 2 b : Nat)

/-- The remainder of a division that rounds toward zero. -/
def remainder (a b : Int) : Int :=
  let r : Int := (a.natAbs % b.natAbs : Nat)
  if a < 0 then -r else r

end PhpFlow.Number
