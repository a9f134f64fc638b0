import PhpFlow.Analysis.Step
import PhpFlow.Syntax.Basic

/-!
# Reads

Before an expression is analysed, every variable whose value it uses is marked as read. An assignment
uses the indices of its target but not the variable.
-/
namespace PhpFlow

/-- How an expression is met: for its value, or as the target of an assignment. -/
inductive Role where
  | value | target
  deriving DecidableEq, Repr

def superglobals : List String :=
  ["GLOBALS", "_SERVER", "_GET", "_POST", "_FILES", "_COOKIE", "_SESSION", "_REQUEST", "_ENV", "argv",
   "argc", "http_response_header"]

/-- Reports a variable that nothing has been written to, the first time only. -/
def reportUnknown (r : Range) (name : String) (reported : Bool) : Step Unit := do
  if !reported then
    Step.report .unknownVariable ("Variable $" ++ name ++ " is not defined") (some r)
  Step.updateVar name fun v => { v with reportedUnknown := true }

def reportPartial (r : Range) (name : String) : Step Unit :=
  Step.report .partialVariable ("Variable $" ++ name ++ " may not be defined in all branches") (some r)

/-- Marks a variable of the current scope as read, and reports it if it may have no value. -/
def readVariable (r : Range) (name : String) : Step Unit :=
  if name = "this" || superglobals.contains name then pure ()
  else Step.guarded r () do
    let scope ← Step.getFault State.currentScope
    match scope.var? name with
    | none => reportUnknown r name false
    | some v =>
      if !(v.isWritten || v.isArgument) then reportUnknown r name v.reportedUnknown
      else if v.isPartial then reportPartial r name
    Step.updateVar name fun v => v.read (some r)

mutual

def Expr.read : Expr → Role → Step Unit
  | .var r n, .value => readVariable r n
  | .var _ _, .target => pure ()
  | .paren _ a, role => a.read role
  | .subscript _ b i, role => do
    b.read role
    readOption i
  | .array _ es, role => readElements es role
  | .assign _ a b byRef, _ => do
    a.read .target
    if byRef && b.variableName?.isSome then pure () else b.read .value
  | .augment _ a _ b, _ | .binary _ a _ b, _ => do
    a.read .value
    b.read .value
  | .unary _ _ a, _ | .update _ _ a _, _ | .cast _ _ a, _ => a.read .value
  | .ternary _ c b a, _ => do
    c.read .value
    readOption b
    a.read .value
  | .call _ f as, _ | .create _ f as, _ => do
    if f.name?.isNone then f.read .value
    readAll as
  | .sequence _ es, _ => readAll es
  | .select _ e _, _ => e.read .value
  | .integer _ _, _ | .float _ _, _ | .string _ _, _ | .boolean _ _, _ | .null _, _ | .name _ _, _
  | .closure _ _ _, _ | .unknown _ _ _, _ | .error _ _, _ => pure ()

def readOption : Option Expr → Step Unit
  | none => pure ()
  | some e => e.read .value

def readAll : List Expr → Step Unit
  | [] => pure ()
  | e :: es => do
    e.read .value
    readAll es

/-- A variable that an element only refers to is not read. -/
def readElements : List Element → Role → Step Unit
  | [], _ => pure ()
  | ⟨_, v, k, _, byRef⟩ :: es, role => do
    readOption k
    match role with
    | .value => if byRef && v.variableName?.isSome then pure () else v.read .value
    | .target => v.read .target
    readElements es role

end

end PhpFlow
