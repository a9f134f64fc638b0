import PhpFlow.Number.Basic
import PhpFlow.Text.Blank
import PhpFlow.Text.Digit

/-!
# Numerals

A numeral has an optional sign, digits with an optional point among or around them, and an optional
exponent. Without point and exponent it is an integer, unless it is too large for 64 bits.
-/
namespace PhpFlow

structure Numeral where
  negative : Bool
  whole : List Nat
  /-- The digits after the point, if there is one. -/
  fraction : Option (List Nat)
  exponent : Option Int
  deriving DecidableEq, Repr

namespace Numeral

def digits : List Char → List Nat × List Char
  | [] => ([], [])
  | c :: cs =>
    match Text.digitValue? c with
    | none => ([], c :: cs)
    | some d =>
      let (ds, rest) := digits cs
      (d :: ds, rest)

def sign : List Char → Bool × List Char
  | '-' :: cs => (true, cs)
  | '+' :: cs => (false, cs)
  | cs => (false, cs)

def natOf (ds : List Nat) : Nat := ds.foldl (fun n d => 10 * n + d) 0

def exponentPart (cs : List Char) : Option Int × List Char :=
  match cs with
  | c :: rest =>
    if c = 'e' || c = 'E' then
      let (negative, rest) := sign rest
      match digits rest with
      | ([], _) => (none, cs)
      | (ds, rest) => (some (if negative then -(natOf ds : Int) else natOf ds), rest)
    else (none, cs)
  | [] => (none, cs)

def scan? (cs : List Char) : Option (Numeral × List Char) :=
  let (negative, cs) := sign cs
  let (whole, afterWhole) := digits cs
  let (fraction, afterFraction) :=
    match afterWhole with
    | '.' :: rest =>
      let (ds, rest) := digits rest
      (some ds, rest)
    | _ => (none, afterWhole)
  match whole, fraction with
  | [], none | [], some [] => none
  | _, _ =>
    let (exponent, rest) := exponentPart afterFraction
    some (⟨negative, whole, fraction, exponent⟩, rest)

/-- The double nearest to `0.ds * 10 ^ point`, where beyond the range of doubles no power is computed. -/
def toDouble (negative : Bool) (ds : List Nat) (e : Int) : Float :=
  let ds := ds.dropWhile (· = 0)
  let size := (ds.length : Int) + e
  if ds.isEmpty || size < -400 then Number.nearest negative 0 1
  else if 400 < size then Number.nearest negative (Nat.pow 10 400) 1
  else Number.nearest negative (natOf ds * Nat.pow 10 e.toNat) (Nat.pow 10 (-e).toNat)

def isInteger (n : Numeral) : Bool := n.fraction.isNone && n.exponent.isNone

def value (n : Numeral) : Except Fault Number :=
  if n.isInteger then
    if Number.digitLimit < n.whole.length then .error (.tooManyDigits n.whole.length)
    else
      let v : Int := if n.negative then -(natOf n.whole : Int) else natOf n.whole
      if Number.inRange v then .ok (.int v) else (Number.int v).toFloat.map .float
  else
    let fraction := n.fraction.getD []
    .ok (.float (toDouble n.negative (n.whole ++ fraction) (n.exponent.getD 0 - fraction.length)))

def parse? (cs : List Char) : Option Numeral :=
  match scan? (Text.trimChars cs) with
  | some (n, []) => some n
  | _ => none

end Numeral

end PhpFlow
