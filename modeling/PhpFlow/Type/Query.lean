import PhpFlow.Type.Order

/-!
# Questions about types
-/
namespace PhpFlow

namespace Atom

def isPrimitive (p : Primitive) : Atom → Bool
  | primitive q => p == q
  | _ => false

def isNull (a : Atom) : Bool := a.isPrimitive .null

def canBeTrue : Atom → Bool
  | primitive p =>
    match p with
    | .null | .void | .literalFalse | .never => false
    | _ => true
  | generic base _ => base.canBeTrue
  | _ => true

def canBeFalse : Atom → Bool
  | primitive p =>
    match p with
    | .literalTrue | .object | .resource | .never => false
    | _ => true
  | shape fields => fields.all (·.optional)
  | callable _ _ | named _ _ | reference _ _ => false
  | generic base _ => base.canBeFalse
  | _ => true

def isArrayLike : Atom → Bool
  | primitive p => p == .array
  | list _ | map _ _ | shape _ => true
  | _ => false

def isObjectLike : Atom → Bool
  | primitive p => p == .object
  | named _ _ => true
  | generic base _ => base.isObjectLike
  | reference k _ => k != .classString
  | _ => false

/-- Whether values of this type are instances of the class `c`: all of them, none of them, or
undecided. A subclass of a declared class may still match, so a class that does not derive from `c`
decides nothing. -/
def instanceVerdict (derives : QualifiedName → QualifiedName → Bool) (c : QualifiedName) :
    Atom → Option Bool
  | primitive p =>
    match p with
    | .mixed | .object | .callable | .iterable | .unknown => none
    | _ => some false
  | list _ | map _ _ | shape _ => some false
  | named q _ => if q.key = c.key || derives q c then some true else none
  | generic base _ => base.instanceVerdict derives c
  | reference k _ => if k = .classString then some false else none
  | callable _ _ | classConstant _ _ | template _ => none

end Atom

namespace TypeUnion

def isEmpty (u : TypeUnion) : Bool := u.atoms.isEmpty

def size (u : TypeUnion) : Nat := u.atoms.length

def contains (u : TypeUnion) (a : Atom) : Bool := u.atoms.contains a

def only? (u : TypeUnion) : Option Atom :=
  match u.atoms with
  | [a] => some a
  | _ => none

def isNullable (u : TypeUnion) : Bool := u.atoms.any Atom.isNull

def withoutNull (u : TypeUnion) : TypeUnion := u.filter fun a => !a.isNull

def onlyBesidesNull? (u : TypeUnion) : Option Atom := u.withoutNull.only?

def isPrimitive (u : TypeUnion) (p : Primitive) : Bool :=
  match u.atoms with
  | [a] => a.isPrimitive p
  | _ => false

/-- The union is not empty and each of its atoms is one of the given primitives. -/
def allAmong (u : TypeUnion) (ps : List Primitive) : Bool :=
  !u.isEmpty && u.atoms.all fun a => ps.any a.isPrimitive

def containsArray (u : TypeUnion) : Bool := u.atoms.any Atom.isArrayLike

def onlyArrays (u : TypeUnion) : Bool := !u.isEmpty && u.atoms.all Atom.isArrayLike

def canBeTrue (u : TypeUnion) : Bool := u.atoms.any Atom.canBeTrue

def canBeFalse (u : TypeUnion) : Bool := u.atoms.any Atom.canBeFalse

/-- The keys of an array whose elements are not described. -/
def anyKey : TypeUnion := ofList [.primitive .int, .primitive .string]

/-- What one atom says about keys and values met when it is iterated. -/
def elementsOf : Atom → List (TypeUnion × TypeUnion)
  | .list v => [(prim .int, v)]
  | .map k v => [(k, v)]
  | .shape (f :: fs) =>
    (f :: fs).map fun g =>
      (match g.key with
        | .int _ => prim .int
        | .text _ => prim .string, g.type)
  | a => if a.isNull then [] else [(anyKey, prim .mixed)]

def elementTypes (u : TypeUnion) : TypeUnion × TypeUnion :=
  match u.atoms.flatMap elementsOf with
  | [] => (anyKey, prim .mixed)
  | pairs => (flatten (pairs.map (·.1)), flatten (pairs.map (·.2)))

end TypeUnion

/-- Nothing is known of the elements of a value of unknown type. -/
def elementTypes? : Option TypeUnion → TypeUnion × TypeUnion
  | none => (TypeUnion.anyKey, TypeUnion.prim .mixed)
  | some u => u.elementTypes

end PhpFlow
