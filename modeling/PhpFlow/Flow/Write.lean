import PhpFlow.Analysis.Step
import PhpFlow.Evaluation.Expression
import PhpFlow.Syntax.Kind

/-!
# Writes

An assignment writes a type and perhaps a value to its target: a variable, an element of the array in a
variable, or each of the targets in a list.
-/
namespace PhpFlow

/-- In a loop a value may change from one round to the next, so as a rule it is not kept. -/
def keepValue (v : Option Value) : Step (Option Value) :=
  Step.get fun s => if 0 < s.loopDepth && !s.config.trackLoopValues then none else v

/-- The type says something about the elements of an array. -/
def Atom.describesElements : Atom → Bool
  | .list _ | .map _ _ => true
  | .shape fs => !fs.isEmpty
  | _ => false

def appendedType (current : Option TypeUnion) (u : TypeUnion) : TypeUnion :=
  let typed := (current.getD .empty).filter Atom.describesElements
  .single (.list (if typed.isEmpty then u else typed.elementTypes.2.union u))

/-- The type of a variable after a write to an element of it. What may be something else than an array
stays what it is. -/
def elementWriteType (current : Option TypeUnion) (appends : Bool) (u : TypeUnion) : TypeUnion :=
  match current with
  | some c =>
    if c.atoms.any fun a => !a.isArrayLike && !a.isNull then c
    else if appends then appendedType current u else .prim .array
  | none => if appends then appendedType none u else .prim .array

/-- Writes to an element of the array in the variable at the root of `base`. -/
def writeElement (r : Range) (base : Expr) (index : Option Expr) (u : TypeUnion) : Step Unit :=
  match base.root? with
  | none => Step.reportMissing "assignment to a subscript of a non-variable" (some r)
  | some root => do
    let scope ← Step.getFault State.currentScope
    let current := (scope.var? root.name).bind (·.flowType)
    let appends := base.variableName?.isSome && index.isNone
    Step.write root.name (elementWriteType current appends u) none (some root.range)

/-- The key of a target in a list, and the number for the next target without one. -/
def IndexKey.target (next : Int) : IndexKey → Option ArrayKey × Int
  | absent => (some (.int next), next + 1)
  | unknown => (none, next)
  | known k => (some k, next)

def elementOf (u : TypeUnion) (v : Option Value) (key : Option ArrayKey) : TypeUnion × Option Value :=
  let field : Option ShapeField :=
    match u.only?, key with
    | some (.shape fs), some k => fs.find? fun f => f.key = k
    | _, _ => none
  let value :=
    match v, key with
    | some (.array es), some k => Value.lookup? k es
    | _, _ => none
  ((field.map (·.type)).getD u.elementTypes.2, value)

mutual

def Expr.write : Expr → TypeUnion → Option Value → Step Unit
  | .paren _ a, u, v => a.write u v
  | .var r n, u, v =>
    if n = "this" then pure ()
    else do
      let v ← keepValue v
      Step.write n u v (some r)
  | .subscript r b i, u, _ => writeElement r b i u
  | .array _ es, u, v => do
    let v ← keepValue v
    writeElements 0 u v es
  | e, _, _ => Step.reportMissing ("assignment to " ++ e.kind.tag) (some e.range)

def writeElements (next : Int) (u : TypeUnion) (v : Option Value) : List Element → Step Unit
  | [] => pure ()
  | ⟨_, target, k, _, _⟩ :: es => do
    let key ← Step.query (Meaning.key (optionMeaning k))
    let (key, next) := key.target next
    let (type, value) := elementOf u v key
    target.write type value
    writeElements next u v es

end

/-- Writes to a target; an unknown type counts as any. -/
def Expr.store (e : Expr) (u : Option TypeUnion) (v : Option Value) : Step Unit :=
  e.write (u.getD (.prim .mixed)) v

end PhpFlow
