import PhpFlow.Number.Numeral
import PhpFlow.Setting
import PhpFlow.Toml.Text

/-!
# Numbers in TOML

Integers in four bases and decimal fractions. An underscore may stand between two digits.
-/
namespace PhpFlow.Toml

inductive Error where
  | malformed
  | tooManyDigits (count : Nat)
  deriving DecidableEq, Repr

def isDigit (c : Char) : Bool := '0' ≤ c && c ≤ '9'

def grouped (ok : Char → Bool) : List Char → List Char × List Char
  | [] => ([], [])
  | c :: '_' :: d :: cs =>
    if ok c then if ok d then prepend c (grouped ok (d :: cs)) else ([c], '_' :: d :: cs)
    else ([], c :: '_' :: d :: cs)
  | c :: cs => if ok c then prepend c (grouped ok cs) else ([], c :: cs)

def natIn? (base : Nat) (cs : List Char) : Option (Nat × List Char) :=
  match grouped (fun c => ((hexValue? c).filter (· < base)).isSome) cs with
  | ([], _) => none
  | (ds, rest) => some (ds.foldl (fun n d => base * n + (hexValue? d).getD 0) 0, rest)

/-- An integer in a base other than ten. -/
def based? : List Char → Option (Nat × List Char)
  | '0' :: 'x' :: cs => natIn? 16 cs
  | '0' :: 'o' :: cs => natIn? 8 cs
  | '0' :: 'b' :: cs => natIn? 2 cs
  | _ => none

def decimals (cs : List Char) : List Nat := cs.map fun c => c.toNat - 48

/-- The digits before the point: a zero alone, or digits of which the first is not zero. -/
def wholePart : List Char → List Char × List Char
  | '0' :: cs => (['0'], cs)
  | cs => grouped isDigit cs

def fractionPart (cs : List Char) : Option (List Char) × List Char :=
  match cs with
  | '.' :: rest =>
    match grouped isDigit rest with
    | ([], _) => (none, cs)
    | (ds, rest) => (some ds, rest)
  | _ => (none, cs)

def exponentPart (cs : List Char) : Option Int × List Char :=
  match cs with
  | 'e' :: rest | 'E' :: rest =>
    let (negative, rest) := Numeral.sign rest
    match grouped isDigit rest with
    | ([], _) => (none, cs)
    | (ds, rest) =>
      let e := Numeral.natOf (decimals ds)
      (some (if negative then -(e : Int) else e), rest)
  | _ => (none, cs)

def integer (negative : Bool) (ds : List Char) : Except Error Scalar :=
  if Number.digitLimit < ds.length then .error (.tooManyDigits ds.length)
  else
    let n := Numeral.natOf (decimals ds)
    .ok (.int (if negative then -(n : Int) else n))

def number? (cs : List Char) : Option (Except Error Scalar × List Char) :=
  match based? cs with
  | some (n, rest) => some (.ok (.int n), rest)
  | none =>
    let (negative, cs) := Numeral.sign cs
    let (whole, rest) := wholePart cs
    if whole.isEmpty then none
    else
      let (fraction, rest) := fractionPart rest
      let (exponent, rest) := exponentPart rest
      if fraction.isNone && exponent.isNone then some (integer negative whole, rest)
      else
        let ds := fraction.getD []
        some (.ok (.float (Numeral.toDouble negative (decimals (whole ++ ds))
          (exponent.getD 0 - ds.length))), rest)

/-- A number that is not finite, if one is at the front of a text. -/
def special? (cs : List Char) : Option (Scalar × List Char) :=
  let (negative, word) := Numeral.sign cs
  let signed := fun (x : Float) => Scalar.float (if negative then -x else x)
  match word with
  | 'i' :: 'n' :: 'f' :: rest => some (signed (1.0 / 0.0), rest)
  | 'n' :: 'a' :: 'n' :: rest => some (signed (0.0 / 0.0), rest)
  | _ => none

end PhpFlow.Toml
