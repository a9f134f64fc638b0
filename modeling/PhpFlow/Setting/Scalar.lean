import PhpFlow.Number.Basic
import PhpFlow.Number.Shortest
import PhpFlow.Obstacle
import PhpFlow.Setting.Calendar

/-!
# Scalar settings

Settings without parts. Numbers and booleans are equal if they are the same number, and all of them are
ordered; for the rest only scalars of one kind are.
-/
namespace PhpFlow

inductive Scalar where
  | null
  | bool (b : Bool)
  | int (n : Int)
  | float (x : Float)
  | text (s : String)
  | day (d : Day)
  | clock (c : Clock)
  | moment (m : Moment)
  deriving Repr, Inhabited

namespace Scalar

def kind : Scalar → String
  | null => "NoneType"
  | bool _ => "bool"
  | int _ => "int"
  | float _ => "float"
  | text _ => "str"
  | day _ => "datetime.date"
  | clock _ => "datetime.time"
  | moment _ => "datetime.datetime"

def text? : Scalar → Option String
  | text s => some s
  | _ => none

def number? : Scalar → Option Number
  | bool b => some (.int (if b then 1 else 0))
  | int n => some (.int n)
  | float x => some (.float x)
  | _ => none

def toText : Scalar → Except Obstacle String
  | null => .ok "None"
  | bool b => .ok (if b then "True" else "False")
  | int n => if Number.isWritable n then .ok (toString n) else .error .tooLongToWrite
  | float x => .ok (Number.plainLayout.render x)
  | text s => .ok s
  | day d => .ok d.toText
  | clock c => .ok c.toText
  | moment m => .ok m.toText

/-- Moments with an offset are equal if they are the same time, those without if they look alike. -/
def equal (a b : Scalar) : Bool :=
  match a.number?, b.number? with
  | some x, some y => x.equal y
  | _, _ =>
    match a, b with
    | null, null => true
    | text s, text t => s == t
    | day d, day e => d == e
    | clock c, clock d => c == d
    | moment m, moment n => m.offset.isSome == n.offset.isSome && m.number == n.number
    | _, _ => false

instance : BEq Scalar := ⟨equal⟩

def less (a b : Scalar) : Except Obstacle Bool :=
  match a.number?, b.number? with
  | some x, some y => .ok (x.less y)
  | _, _ =>
    match a, b with
    | text s, text t => .ok (s < t)
    | day d, day e => .ok (d.number < e.number)
    | clock c, clock d => .ok (c.number < d.number)
    | moment m, moment n =>
      if m.offset.isSome = n.offset.isSome then .ok (m.number < n.number) else .error .localAndOffset
    | moment _, day _ | day _, moment _ => .error .dayAndMoment
    | a, b => .error (.noOrder a.kind b.kind)

/-- Every scalar has an order with the one before it. -/
def checkOrder : List Scalar → Except Obstacle Unit
  | a :: b :: rest => do
    let _ ← b.less a
    checkOrder (b :: rest)
  | _ => .ok ()

def sort (xs : List Scalar) : Except Obstacle (List Scalar) := do
  checkOrder xs
  return xs.mergeSort fun a b => !((b.less a).toOption.getD false)

end Scalar

end PhpFlow
