import PhpFlow.Source
import PhpFlow.Type.Query
import PhpFlow.Value.Comparison

/-!
# What is known about a variable

Every write to a variable is a record with an identity of its own. A variable keeps all writes in order
and, among them, the live ones: those that may be the last write on some path to this point. After a
construct with several arms the live writes of all arms are live; if some arm leaves the variable
unwritten, it is partial.
-/
namespace PhpFlow

/-- A write is known by its number; no two writes of an analysis have the same. -/
structure Write where
  id : Nat
  type : TypeUnion
  value : Option Value
  range : Option Range

structure Variable where
  name : String
  commentType : Option TypeUnion := none
  declaredType : Option TypeUnion := none
  default : Option Value := none
  /-- All writes, oldest first. -/
  history : List Write := []
  /-- The writes that may be the last one here. -/
  live : List Write := []
  writes : Nat := 0
  /-- Merging a scope that was not branched from its target may take this below zero. -/
  reads : Int := 0
  references : List Range := []
  isArgument : Bool := false
  isPartial : Bool := false
  /-- A read of the unbound variable has been reported. -/
  reportedUnknown : Bool := false
  /-- The type that a tested condition leaves; it holds in one branch only. -/
  narrowed : Option TypeUnion := none

namespace Variable

def isWritten (v : Variable) : Bool := 0 < v.writes

/-- After a write in a straight line it alone is live. -/
def write (v : Variable) (w : Write) : Variable :=
  { v with
    history := v.history ++ [w]
    live := [w]
    writes := v.writes + 1
    isPartial := false
    narrowed := none }

def read (v : Variable) (r : Option Range) : Variable :=
  { v with reads := v.reads + 1, references := v.references ++ r.toList }

def knows (ws : List Write) (w : Write) : Bool := ws.any fun x => x.id = w.id

def distinct (ws : List Write) : List Write :=
  ws.foldl (fun acc w => if knows acc w then acc else acc ++ [w]) []

def missingFrom (history ws : List Write) : List Write :=
  (distinct ws).filter fun w => !knows history w

/-- Joins the live writes of the arms of a construct. The writes made inside the arms go to the history,
and so does a live write that is not there. -/
def join (v : Variable) (liveSets : List (List Write)) (newWrites : List Write) (anyPartial : Bool) :
    Variable :=
  let live := distinct liveSets.flatten
  let added := missingFrom v.history (newWrites ++ live)
  { v with
    history := v.history ++ added
    live := live
    writes := v.writes + added.length
    isPartial := anyPartial || liveSets.any List.isEmpty
    narrowed := if added.isEmpty then v.narrowed else none }

/-- The types of all writes ever made. -/
def inferredType (v : Variable) : Option TypeUnion :=
  if v.history.isEmpty then none else some (.flatten (v.history.map (·.type)))

def type (v : Variable) : Option TypeUnion := v.declaredType <|> v.commentType <|> v.inferredType

/-- The type at this point of the program. -/
def flowType (v : Variable) : Option TypeUnion :=
  v.narrowed <|> v.commentType <|>
    if v.live.isEmpty then v.type
    else
      let u := TypeUnion.flatten (v.live.map (·.type))
      some (if v.isPartial then u.union (.prim .null) else u)

/-- The value at this point, if every live write wrote the same. -/
def flowValue (v : Variable) : Option Value :=
  if v.isPartial || v.narrowed.isSome then none else Value.common? (v.live.map (·.value))

end Variable

end PhpFlow
