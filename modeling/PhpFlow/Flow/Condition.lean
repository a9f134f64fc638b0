import PhpFlow.Evaluation.Expression
import PhpFlow.Operator.Narrowing

/-!
# Conditions

Which types variables have once a condition is known to hold, or not to hold. A condition narrows a
variable by its own truth, by a comparison, or by both operands of a connective.
-/
namespace PhpFlow

def Atom.decided (outcome : Bool) (a : Atom) : Atom :=
  if a.isPrimitive .bool then .primitive (if outcome then .literalTrue else .literalFalse) else a

/-- What is left of a type on one side of a test of its truth, if that says anything. -/
def refineTruth (side : BranchSide) (current : Option TypeUnion) : Option TypeUnion :=
  match side, current with
  | .onTrue, some u => changed u (u.atoms.filter Atom.canBeTrue |>.map (Atom.decided true))
  | .onFalse, some u => changed u (u.atoms.filter Atom.canBeFalse |>.map (Atom.decided false))
  | _, _ => none
where
  changed (u : TypeUnion) (as : List Atom) : Option TypeUnion :=
    let v := TypeUnion.ofList as
    if v.isEmpty || v == u then none else some v

/-- The connective has this outcome only if both of its operands do. -/
def Operator.needsBoth (op : Operator) (side : BranchSide) : Bool :=
  (op.isConjunction && side == .onTrue) || (op.isDisjunction && side == .onFalse)

/-- A branch of a scope in which a condition has a given outcome, if that narrows anything. -/
def Expr.narrow : Expr → Handle → BranchSide → Step (Option Handle)
  | .paren _ a, scope, side => a.narrow scope side
  | .unary _ op a, scope, side => if op = "!" then a.narrow scope side.flip else pure none
  | .var _ n, scope, side => narrowVariable scope side n (refineTruth side)
  | .binary r a op b, scope, side =>
    match Operator.ofToken? op with
    | none => pure none
    | some op =>
      if op.needsBoth side then do
        let first ← a.narrow scope side
        let base := first.getD scope
        let second ← Step.inScope base (b.narrow base side)
        match first, second with
        | first, none => return first
        | none, second => return second
        | some h, second => do
          Step.discard h
          return second
      else Step.inScope scope (op.narrow (.ofExprs r a b a.meaning b.meaning) scope side)
  | _, _, _ => pure none

def Expr.branch (condition : Expr) (side : BranchSide) : Step Handle := do
  let parent ← Step.currentHandle
  match ← condition.narrow parent side with
  | some h => return h
  | none => Step.branch parent side

end PhpFlow
