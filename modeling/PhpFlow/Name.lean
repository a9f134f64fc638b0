import PhpFlow.Text.Blank
import PhpFlow.Text.Lower

/-!
# Qualified names

A class, function or constant is known by the list of its namespace parts, written `\A\B`. Classes and
functions are looked up by a key in which case does not count.
-/
namespace PhpFlow

structure QualifiedName where
  parts : List String
  deriving DecidableEq, Repr

namespace QualifiedName

def empty : QualifiedName := ⟨[]⟩

/-- The parts of a text between backslashes; empty ones do not count. -/
def partsOf (text : String) : List String :=
  (Text.pieces (· = '\\') [] text.toList).map String.ofList

def ofText (text : String) : QualifiedName := ⟨partsOf text⟩

def push (q : QualifiedName) (name : String) : QualifiedName := ⟨q.parts ++ partsOf name⟩

/-- The unqualified name, which only the empty name lacks. -/
def last? (q : QualifiedName) : Option String := q.parts.getLast?

def baseName (q : QualifiedName) : String := q.last?.getD ""

def toText (q : QualifiedName) : String := String.join (q.parts.map ("\\" ++ ·))

/-- Names with the same key are the same class or function. -/
def key (q : QualifiedName) : String := Text.lower q.toText

def length (q : QualifiedName) : Nat := q.parts.length

end QualifiedName

end PhpFlow
