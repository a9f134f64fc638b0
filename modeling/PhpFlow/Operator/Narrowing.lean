import PhpFlow.Analysis.Step
import PhpFlow.Operator.Fold

/-!
# Narrowing by comparisons

A test for a class or for null tells something about the tested variable on each side of a branch. The
branch is then made with the variable's type narrowed.
-/
namespace PhpFlow

/-- Branches with the type of a variable replaced by what `refine` makes of it. Nothing is branched if
the variable is unknown or `refine` has nothing to say. -/
def narrowVariable (scope : Handle) (side : BranchSide) (name : String)
    (refine : Option TypeUnion → Option TypeUnion) : Step (Option Handle) := do
  let s ← Step.getFault fun s => s.arena.get scope
  match s.var? name with
  | none => return none
  | some v =>
    match refine v.flowType with
    | none => return none
    | some u =>
      let h ← Step.branch scope side
      Step.onArena fun a => (a.updateVar h name fun v => { v with narrowed := some u }).map fun b =>
        ((), b)
      return some h

/-- On the true side those atoms stay that are surely instances, or else the class itself is taken; on
the others the sure instances go. -/
def refineInstance (derives : QualifiedName → QualifiedName → Bool) (c : QualifiedName)
    (side : BranchSide) (current : Option TypeUnion) : Option TypeUnion :=
  let target := TypeUnion.single (.named c c.baseName)
  let sure := fun a : Atom => a.instanceVerdict derives c == some true
  match side, current with
  | .onTrue, none => some target
  | .onTrue, some u =>
    let kept := u.filter sure
    some (if kept.isEmpty then target else kept)
  | _, none => none
  | _, some u => some (u.filter fun a => !sure a)

/-- Where the variable is null only null is left, or after a loose comparison all that may be false;
elsewhere null goes. -/
def refineNull (strict isNullSide : Bool) (u : TypeUnion) : TypeUnion :=
  if isNullSide then
    if strict then .prim .null
    else
      let falsy := u.filter Atom.canBeFalse
      if falsy.isEmpty then .prim .null else falsy
  else u.withoutNull

namespace Operator

def narrowInstance (o : Operands) (scope : Handle) (side : BranchSide) : Step (Option Handle) := do
  let c ← Step.query o.rightClass
  match o.leftVariable, c with
  | some name, some c =>
    let derives ← Step.get fun s => s.symbols.derives
    narrowVariable scope side name (refineInstance derives c side)
  | _, _ => return none

/-- The comparison is with `===` or `!==`. -/
def isStrict (op : Operator) : Bool := op == identical || op == notIdentical

/-- The operator holds if its operands are equal. -/
def isEquality (op : Operator) : Bool := op == identical || op == equal

def narrowNull (op : Operator) (o : Operands) (scope : Handle) (side : BranchSide) :
    Step (Option Handle) := do
  let right ← Step.query o.rightValue
  let name ←
    if (right.map Value.isNull).getD false then Pure.pure o.leftVariable
    else do
      let left ← Step.query o.leftValue
      if (left.map Value.isNull).getD false then Pure.pure o.rightVariable else Pure.pure none
  match name with
  | none => return none
  | some name =>
    let isNullSide := op.isEquality == (side == .onTrue)
    narrowVariable scope side name fun u => u.map (refineNull op.isStrict isNullSide)

/-- A branch of `scope` in which the condition has the outcome `side`, if that narrows anything. -/
def narrow (op : Operator) (o : Operands) (scope : Handle) (side : BranchSide) :
    Step (Option Handle) :=
  match op with
  | equal | notEqual | identical | notIdentical => op.narrowNull o scope side
  | instanceOf => narrowInstance o scope side
  | _ => Step.pure none

end Operator

end PhpFlow
