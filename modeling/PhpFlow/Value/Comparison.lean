import PhpFlow.Value.Coercion

/-!
# Comparison of values

Identity and loose equality, each true, false or undecided. Two objects may or may not be the same one.
-/
namespace PhpFlow

def both : Option Bool → Option Bool → Option Bool
  | some false, _ | _, some false => some false
  | some true, some true => some true
  | _, _ => none

namespace Value

mutual

/-- `===`: the same kind and the same value; arrays also in the same order. -/
def identical : Value → Value → Option Bool
  | null, null => some true
  | bool a, bool b => some (a == b)
  | int a, int b => some (a == b)
  | float a, float b => some (a == b)
  | string a, string b => some (a == b)
  | array as, array bs => identicalEntries as bs
  | object _, object _ => none
  | _, _ => some false

def identicalEntries : List (ArrayKey × Value) → List (ArrayKey × Value) → Option Bool
  | [], [] => some true
  | (k, a) :: as, (l, b) :: bs =>
    if k = l then both (a.identical b) (identicalEntries as bs) else some false
  | _, _ => some false

end

def isNumber : Value → Bool
  | int _ | float _ => true
  | _ => false

def isNullOrBool : Value → Bool
  | null | bool _ => true
  | _ => false

/-- A number and a string are equal as numbers if the string is numeric, and else as strings. -/
def numberEqualsString (n : Value) (s : String) : Except Fault (Option Bool) := do
  if NumericText.isNumeric s then
    match ← n.toNumber?, ← NumericText.whole? s with
    | some a, some b => return some (a.equal b)
    | _, _ => return none
  else return (← n.toString?).map (· == s)

/-- Two strings are equal as numbers if both are numeric, and else as strings. -/
def stringEqualsString (a b : String) : Except Fault (Option Bool) := do
  if NumericText.isNumeric a && NumericText.isNumeric b then
    match ← NumericText.whole? a, ← NumericText.whole? b with
    | some x, some y => return some (x.equal y)
    | _, _ => return none
  else return some (a == b)

/-- The same keys, as texts, in any order. -/
def sameKeys (as bs : List (ArrayKey × Value)) : Except Fault Bool :=
  if (as ++ bs).all fun e => e.1.isWritable then
    .ok ((as.map fun e => e.1.toText).isPerm (bs.map fun e => e.1.toText))
  else .error .tooLongToWrite

mutual

/-- `==`, with the comparison rules of PHP 8. -/
def looseEqual : Value → Value → Except Fault (Option Bool)
  | object c, r =>
    if r.isNullOrBool then .ok (some ((object c).truth == r.truth)) else .ok none
  | null, null => .ok (some true)
  | null, string s => .ok (some (s == ""))
  | string s, null => .ok (some (s == ""))
  | null, r => .ok (some (false == r.truth))
  | bool a, r => .ok (some (a == r.truth))
  | l, null => .ok (some (l.truth == false))
  | l, bool b => .ok (some (l.truth == b))
  | _, object _ => .ok none
  | int a, int b => .ok (some (a == b))
  | int a, float y => .ok (some (Number.equalsInt y a))
  | float x, int b => .ok (some (Number.equalsInt x b))
  | float x, float y => .ok (some (x == y))
  | string a, string b => stringEqualsString a b
  | int a, string s => numberEqualsString (int a) s
  | float x, string s => numberEqualsString (float x) s
  | string s, int b => numberEqualsString (int b) s
  | string s, float y => numberEqualsString (float y) s
  | array as, array bs =>
    match sameKeys as bs with
    | .error e => .error e
    | .ok same => if same then looseEqualEntries bs as (some true) else .ok (some false)
  | array _, _ => .ok (some false)
  | _, array _ => .ok (some false)

/-- Entry by entry, up to the first that differs. -/
def looseEqualEntries (bs : List (ArrayKey × Value)) :
    List (ArrayKey × Value) → Option Bool → Except Fault (Option Bool)
  | [], verdict => .ok verdict
  | (k, a) :: as, verdict =>
    match lookup? k bs with
    | none => .ok (some false)
    | some b => do
      match ← a.looseEqual b with
      | some false => return some false
      | some true => looseEqualEntries bs as verdict
      | none => looseEqualEntries bs as none

end

/-- The value that all of a list share, if all are known and identical to the first. -/
def common? : List (Option Value) → Option Value
  | [] => none
  | none :: _ => none
  | some v :: rest =>
    if rest.all fun w =>
      match w with
      | some w => v.identical w == some true
      | none => false
    then some v else none

end Value

end PhpFlow
