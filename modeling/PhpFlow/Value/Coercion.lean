import PhpFlow.Number.Numeral
import PhpFlow.Number.Shortest
import PhpFlow.Text.Quoted
import PhpFlow.Type.Order
import PhpFlow.Type.Printer
import PhpFlow.Value.Basic

/-!
# Coercions

How a constant reads as a truth value, a number, a text or an array key. There is no answer where PHP
would raise an error, or where it depends on an object.
-/
namespace PhpFlow

/-- Doubles in strings: an exponent is marked with a capital, and what is not finite is spelt out. -/
def stringLayout : Number.Layout := ⟨'E', "NAN", "INF", "-INF"⟩

namespace NumericText

/-- The blanks that may stand around a number in a string. -/
def isPad (c : Char) : Bool := c = ' ' || (0x9 ≤ c.toNat && c.toNat ≤ 0xD)

def isNumeric (s : String) : Bool :=
  match Numeral.scan? (s.toList.dropWhile isPad) with
  | some (_, rest) => rest.all isPad
  | none => false

/-- The number a string starts with, as arithmetic reads it. -/
def leading? (s : String) : Except Fault (Option Number) :=
  match Numeral.scan? (s.toList.dropWhile isPad) with
  | some (n, _) => n.value.map some
  | none => .ok none

/-- The number a whole numeric string denotes, as comparison reads it. -/
def whole? (s : String) : Except Fault (Option Number) :=
  match Numeral.parse? s.toList with
  | some n => n.value.map some
  | none => .ok none

/-- A text without one newline at its end. -/
def dropNewline (cs : List Char) : List Char :=
  match cs.reverse with
  | '\n' :: rest => rest.reverse
  | _ => cs

/-- Decimal digits without leading zeros, and a minus sign before any but zero. -/
def isCanonicalInt : List Char → Bool
  | ['0'] => true
  | '-' :: c :: cs => c.isDigit && c ≠ '0' && cs.all Char.isDigit
  | c :: cs => c.isDigit && c ≠ '0' && cs.all Char.isDigit
  | [] => false

/-- A string as an array key: the integer it spells, if that fits 64 bits, or the string itself. A
newline at the end does not hide the integer. -/
def toKey (s : String) : Except Fault ArrayKey :=
  let cs := dropNewline s.toList
  if isCanonicalInt cs then
    let (negative, ds) := Numeral.sign cs
    if Number.digitLimit < ds.length then .error (.tooManyDigits ds.length)
    else
      let n : Int := Numeral.natOf (ds.map fun d => d.toNat - 48)
      let n := if negative then -n else n
      .ok (if Number.inRange n then .int n else .text s)
  else .ok (.text s)

end NumericText

namespace Value

/-- An integer within 64 bits stays one; beyond them it becomes a double. -/
def ofNumber : Number → Except Fault Value
  | .int n => if Number.inRange n then .ok (int n) else (Number.int n).toFloat.map float
  | .float x => .ok (float x)

/-- The integer a double truncates to, if it is finite and fits 64 bits. -/
def floatToInt? (x : Float) : Option Int := (Number.truncate? x).filter Number.inRange

/-- Doubles that are integers below 10^15 are written without a point. -/
def floatText (x : Float) : String :=
  match Number.truncate? x with
  | some n =>
    if Number.isIntegral x && n.natAbs < Nat.pow 10 15 then toString n else stringLayout.render x
  | none => stringLayout.render x

def truth : Value → Bool
  | null => false
  | bool b => b
  | int n => n != 0
  | float x => !(x == 0.0)
  | string s => s != "" && s != "0"
  | array entries => !entries.isEmpty
  | object _ => true

def toInt? : Value → Except Fault (Option Int)
  | null => .ok (some 0)
  | bool b => .ok (some (if b then 1 else 0))
  | int n => .ok (some n)
  | float x => .ok (floatToInt? x)
  | string s => do
    match ← NumericText.leading? s with
    | none => return some 0
    | some (.int n) => return some n
    | some (.float x) => return floatToInt? x
  | array entries => .ok (some (if entries.isEmpty then 0 else 1))
  | object _ => .ok none

def toNumber? : Value → Except Fault (Option Number)
  | null => .ok (some (.int 0))
  | bool b => .ok (some (.int (if b then 1 else 0)))
  | int n => .ok (some (.int n))
  | float x => .ok (some (.float x))
  | string s => NumericText.leading? s
  | array _ | object _ => .ok none

def toFloat? (v : Value) : Except Fault (Option Float) := do
  match ← v.toNumber? with
  | none => return none
  | some n => n.toFloat.map some

def toString? : Value → Except Fault (Option String)
  | null => .ok (some "")
  | bool b => .ok (some (if b then "1" else ""))
  | int n => (Number.write n).map some
  | float x => .ok (some (floatText x))
  | string s => .ok (some s)
  | array _ => .ok (some "Array")
  | object _ => .ok none

def toKey? : Value → Except Fault (Option ArrayKey)
  | null => .ok (some (.text ""))
  | bool b => .ok (some (.int (if b then 1 else 0)))
  | int n => .ok (some (.int n))
  | float x => .ok ((floatToInt? x).map .int)
  | string s => (NumericText.toKey s).map some
  | array _ | object _ => .ok none

mutual

/-- The type of a value. An array with entries has the shape of them. -/
def type : Value → TypeUnion
  | null => .prim .null
  | bool _ => .prim .bool
  | int _ => .prim .int
  | float _ => .prim .float
  | string _ => .prim .string
  | array [] => .prim .array
  | array (e :: es) => .single (.shape (fieldTypes (e :: es)))
  | object q => .single (.named q q.baseName)

def fieldTypes : List (ArrayKey × Value) → List ShapeField
  | [] => []
  | (k, v) :: es => ⟨k, v.type, false⟩ :: fieldTypes es

end

def display? : Value → Except Fault (Option String)
  | null => .ok (some "null")
  | bool b => .ok (some (if b then "true" else "false"))
  | int n => (Number.write n).map some
  | float x => .ok (some (floatText x))
  | string s => .ok (some (Text.quote s))
  | array _ | object _ => .ok none

end Value

end PhpFlow
