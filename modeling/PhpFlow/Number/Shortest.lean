import PhpFlow.Number.Double

/-!
# Shortest decimals

A double is written with the fewest digits that read back to it; of two such decimals the nearer, and
the even one on a tie.
-/
namespace PhpFlow.Number

/-- `0.d₁d₂… * 10 ^ point`, without trailing zeros. -/
structure Decimal where
  digits : List Char
  point : Int
  deriving DecidableEq, Repr

def digitCount (n : Nat) : Nat := (Nat.toDigits 10 n).length

def decimalPoint (n d : Nat) : Int :=
  if d ≤ n then digitCount (n / d) else 1 - (digitCount (d / n) : Int)

/-- The decimal `c * 10 ^ e` rounds to the double with these bits. -/
def readsBack (target c : Nat) (e : Int) : Bool :=
  nearestBits (c * Nat.pow 10 e.toNat) (Nat.pow 10 (-e).toNat) == target

/-- The neighbours of `n / d` among the multiples of `10 ^ e` that read back, the better first. -/
def candidate? (target n d : Nat) (e : Int) : Option Nat :=
  let num := n * Nat.pow 10 (-e).toNat
  let den := d * Nat.pow 10 e.toNat
  let c := num / den
  let rest := 2 * (num % den)
  let nearer := if den < rest || (rest = den && c % 2 = 1) then c + 1 else c
  let farther := if nearer = c then c + 1 else c
  if readsBack target nearer e then some nearer
  else if readsBack target farther e then some farther
  else none

def searchDigits (target n d : Nat) : Nat → Int → Nat × Int
  | 0, e => (n * Nat.pow 10 (-e).toNat / (d * Nat.pow 10 e.toNat), e)
  | left + 1, e =>
    match candidate? target n d e with
    | some c => (c, e)
    | none => searchDigits target n d left (e - 1)

def shortest (x : Float) : Decimal :=
  let v := magnitude x
  let n := v.mantissa * Nat.pow 2 v.exponent.toNat
  let d := Nat.pow 2 (-v.exponent).toNat
  let target := x.toBits.toNat % Nat.pow 2 63
  let (c, e) := searchDigits target n d 17 (decimalPoint n d - 1)
  let digits := Nat.toDigits 10 c
  ⟨(digits.reverse.dropWhile (· = '0')).reverse, e + digits.length⟩

/-- How doubles are laid out: the mark before an exponent, and the words for what is not finite. -/
structure Layout where
  mark : Char
  nan : String
  infinity : String
  minusInfinity : String

def exponentText (e : Int) : List Char :=
  let digits := Nat.toDigits 10 e.natAbs
  (if e < 0 then '-' else '+') :: (if digits.length < 2 then '0' :: digits else digits)

/-- Positional from `0.0001` up to sixteen digits before the point, otherwise with an exponent. -/
def Decimal.chars (mark : Char) (v : Decimal) : List Char :=
  if -4 < v.point && v.point ≤ 16 then
    if v.point ≤ 0 then
      '0' :: '.' :: List.replicate (-v.point).toNat '0' ++ v.digits
    else
      let k := v.point.toNat
      if v.digits.length ≤ k then
        v.digits ++ List.replicate (k - v.digits.length) '0' ++ ['.', '0']
      else v.digits.take k ++ '.' :: v.digits.drop k
  else
    let tail := v.digits.drop 1
    v.digits.take 1 ++ (if tail.isEmpty then [] else '.' :: tail) ++
      mark :: exponentText (v.point - 1)

def Layout.render (l : Layout) (x : Float) : String :=
  if x.isNaN then l.nan
  else if x.isInf then (if isNegative x then l.minusInfinity else l.infinity)
  else
    let body := if x == 0.0 then ['0', '.', '0'] else (shortest x).chars l.mark
    String.ofList (if isNegative x then '-' :: body else body)

def plainLayout : Layout := ⟨'e', "nan", "inf", "-inf"⟩

end PhpFlow.Number
