import PhpFlow.Name

/-!
# Types

A type is a union of atoms: primitive types, lists, maps, shapes of arrays, callables, classes with or
without parameters, class constants, references to the current class, and template parameters. A union
knows its atoms in one canonical order and each of them once.
-/
namespace PhpFlow

inductive Primitive where
  | null | void | int | float | string | bool | literalTrue | literalFalse | mixed | resource | array
  | object | callable | iterable | never | unknown
  deriving DecidableEq, Repr

/-- An array is indexed by integers and by texts. -/
inductive ArrayKey where
  | int (n : Int)
  | text (s : String)
  deriving DecidableEq, Repr

/-- Types that refer to the class around them, or name a class by a string. -/
inductive Reference where
  | self | static | classString
  deriving DecidableEq, Repr

mutual

inductive Atom where
  | primitive (p : Primitive)
  | list (value : TypeUnion)
  | map (key value : TypeUnion)
  | shape (fields : List ShapeField)
  | callable (args : List TypeUnion) (result : Option TypeUnion)
  | named (name : QualifiedName) (spelling : String)
  | generic (base : Atom) (args : List TypeUnion)
  | classConstant (owner : QualifiedName) (constant : String)
  | reference (kind : Reference) (target : Option QualifiedName)
  | template (name : String)

structure ShapeField where
  key : ArrayKey
  type : TypeUnion
  optional : Bool

/-- Build unions with `TypeUnion.ofList`, which puts the atoms in order. -/
structure TypeUnion where
  atoms : List Atom

end

instance : Inhabited Atom := ⟨.primitive .unknown⟩

instance : Inhabited TypeUnion := ⟨⟨[]⟩⟩

namespace Primitive

def all : List Primitive :=
  [null, void, int, float, string, bool, literalTrue, literalFalse, mixed, resource, array, object,
   callable, iterable, never, unknown]

def order : Primitive → Nat
  | null => 0 | void => 1 | int => 2 | float => 3 | string => 4 | bool => 5 | literalTrue => 6
  | literalFalse => 7 | mixed => 8 | resource => 9 | array => 10 | object => 11 | callable => 12
  | iterable => 13 | never => 14 | unknown => 15

def word : Primitive → String
  | null => "null" | void => "void" | int => "int" | float => "float" | string => "string"
  | bool => "bool" | literalTrue => "true" | literalFalse => "false" | mixed => "mixed"
  | resource => "resource" | array => "array" | object => "object" | callable => "callable"
  | iterable => "iterable" | never => "never" | unknown => "*unknown*"

def ofWord? (w : String) : Option Primitive := all.find? fun p => p.word = w

end Primitive

def Reference.word : Reference → String
  | .self => "self"
  | .static => "static"
  | .classString => "class-string"

namespace ArrayKey

def toText : ArrayKey → String
  | int n => toString n
  | text s => s

/-- The key of an entry and the number for the next entry without one: such an entry is numbered on
from the greatest number so far. -/
def orNext (next : Int) : Option ArrayKey → ArrayKey × Int
  | none => (int next, next + 1)
  | some (int n) => (int n, max next (n + 1))
  | some (text s) => (text s, next)

end ArrayKey

end PhpFlow
