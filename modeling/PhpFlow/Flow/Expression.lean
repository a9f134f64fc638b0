import PhpFlow.Flow.Condition
import PhpFlow.Flow.Read
import PhpFlow.Flow.Write

/-!
# Analysis of expressions

Performs the writes of an expression in the order of evaluation and lets its operators report what is
wrong with them. The outcome is false if the analysis met a syntax error and has to stop.
-/
namespace PhpFlow

namespace Step

/-- Goes on to `b` unless `a` has to stop. -/
def andThen (a b : Step Bool) : Step Bool := do
  if ← a then b else return false

/-- Does `a`, which never has to stop. -/
def thenContinue (a : Step Unit) : Step Bool := do
  a
  return true

/-- Analyses the right operand of a connective, which runs on one outcome of the left only: a branch
for when it does, another for when it does not. -/
def optionally (makeBranch : Step Handle) (right : Step Bool) : Step Bool := do
  let parent ← currentHandle
  let taken ← makeBranch
  let skipped ← branch parent .neutral
  let ok ← inScope taken right
  merge parent [taken, skipped]
  return ok

/-- Analyses the two arms of a condition, each in a branch where it has that outcome. -/
def choice (condition : Expr) (onTrue onFalse : Step Bool) : Step Bool := do
  let parent ← currentHandle
  let trueBranch ← condition.branch .onTrue
  let falseBranch ← condition.branch .onFalse
  let ok ← andThen (inScope trueBranch onTrue) (inScope falseBranch onFalse)
  merge parent [trueBranch, falseBranch]
  return ok

end Step

/-- The branch in which the right operand of a connective runs. -/
def Operator.rightBranch (op : Operator) (left : Expr) : Step Handle :=
  if op.isConjunction then left.branch .onTrue
  else if op.isDisjunction then left.branch .onFalse
  else do
    let parent ← Step.currentHandle
    Step.branch parent .neutral

def updatedValue (op : String) : Option Value → Except Fault (Option Value)
  | some (.int n) =>
    (Value.ofNumber (.int (if op.toList.contains '+' then n + 1 else n - 1))).map some
  | some .null => .ok (if op.toList.contains '+' then some (.int 1) else none)
  | _ => .ok none

/-- Asks for type and value, for the sake of the issues that brings. -/
def Expr.check (e : Expr) : Step Unit := do
  let _ ← Step.query e.type
  let _ ← Step.query e.value

def Expr.storeFrom (target source : Expr) (keepsValue : Bool) : Step Unit := do
  let u ← Step.query source.type
  let v ← if keepsValue then Step.query source.value else pure none
  target.store u v

def Expr.storeUpdate (r : Range) (op : String) (argument : Expr) (before : Bool) : Step Unit := do
  let current ← Step.query argument.value
  let v ← Step.query (Query.ofExcept (updatedValue op current))
  let u ← Step.query (Expr.update r op argument before).type
  argument.store u v

def reportSyntaxError (r : Range) (where_ : NodeKind) : Step Bool := do
  Step.report .parseError ("Syntax error in " ++ where_.tag) (some r)
  return false

mutual

def Expr.analyze : Expr → Role → NodeKind → Step Bool
  | .assign r a b byRef, _, _ =>
    Step.guarded r true <|
      Step.andThen (b.analyze .value .assignment) <|
      Step.andThen (a.analyze .target .assignment) <|
      Step.thenContinue (a.storeFrom b !byRef)
  | .augment r a op b, _, _ =>
    Step.guarded r true <|
      Step.andThen (b.analyze .value .augmentedAssignment) <|
      Step.andThen (a.analyze .target .augmentedAssignment) <|
      Step.thenContinue (a.storeFrom (.augment r a op b) true)
  | .update r op a before, _, _ =>
    Step.guarded r true <|
      Step.andThen (a.analyze .target .update) <|
      Step.thenContinue (Expr.storeUpdate r op a before)
  | .binary r a op b, _, _ =>
    Step.guarded r true <|
      Step.andThen (a.analyze .value .binary) <|
      Step.andThen
        (match (Operator.ofToken? op).filter Operator.isShortCircuit with
          | some op => Step.optionally (op.rightBranch a) (b.analyze .value .binary)
          | none => b.analyze .value .binary) <|
      Step.thenContinue (Expr.binary r a op b).check
  | .ternary r c b a, _, _ =>
    Step.guarded r true <|
      Step.andThen (c.analyze .value .conditional) <|
      Step.choice c (analyzeOption b .conditional) (a.analyze .value .conditional)
  | .unary r op a, _, _ =>
    Step.andThen (a.analyze .value .unary) <|
    Step.thenContinue (do let _ ← Step.query (Expr.unary r op a).value)
  | .paren _ a, .value, _ => a.analyze .value .parenthesized
  | .paren _ a, .target, where_ => a.analyze .target where_
  | .subscript _ b i, .value, _ =>
    Step.andThen (b.analyze .value .subscript) (analyzeOption i .subscript)
  | .subscript _ b i, .target, where_ =>
    Step.andThen (b.analyze .target where_) (analyzeOption i where_)
  | .array _ es, .value, _ => analyzeElements es
  | .array _ es, .target, where_ => analyzeTargets es where_
  | .call _ f as, _, _ =>
    Step.andThen (f.analyze .value .functionCall) (analyzeAll as .functionCall)
  | .create _ c as, _, _ =>
    Step.andThen (c.analyze .value .objectCreation) (analyzeAll as .objectCreation)
  | .cast _ _ a, _, _ => a.analyze .value .cast
  | .sequence _ es, _, _ => analyzeAll es .sequence
  | .select r e _, _, _ => do
    Step.reportMissing "match expression" (some r)
    e.analyze .value .selection
  | .closure r _ _, _, _ => Step.thenContinue (Step.reportMissing "anonymous function" (some r))
  | .unknown r k _, _, _ => Step.thenContinue (Step.reportMissing ("expression kind " ++ k) (some r))
  | .error r _, _, where_ => reportSyntaxError r where_
  | .var _ _, _, _ | .integer _ _, _, _ | .float _ _, _, _ | .string _ _, _, _ | .boolean _ _, _, _
  | .null _, _, _ | .name _ _, _, _ => pure true

def analyzeOption : Option Expr → NodeKind → Step Bool
  | none, _ => pure true
  | some e, where_ => e.analyze .value where_

def analyzeAll : List Expr → NodeKind → Step Bool
  | [], _ => pure true
  | e :: es, where_ => Step.andThen (e.analyze .value where_) (analyzeAll es where_)

def analyzeElements : List Element → Step Bool
  | [] => pure true
  | ⟨_, v, k, _, _⟩ :: es =>
    Step.andThen (v.analyze .value .arrayElement) <|
    Step.andThen (analyzeOption k .arrayElement) <|
    analyzeElements es

def analyzeTargets : List Element → NodeKind → Step Bool
  | [], _ => pure true
  | ⟨_, v, _, _, _⟩ :: es, where_ =>
    Step.andThen (v.analyze .target where_) (analyzeTargets es where_)

end

def Expr.evaluate (e : Expr) (where_ : NodeKind) : Step Bool := do
  e.read .value
  e.analyze .value where_

def evaluateAll : List Expr → NodeKind → Step Bool
  | [], _ => pure true
  | e :: es, where_ => Step.andThen (e.evaluate where_) (evaluateAll es where_)

end PhpFlow
