/-!
# Places in a source

Rows and columns count from zero and are shown from one; offsets count bytes.
-/
namespace PhpFlow

structure Point where
  row : Nat
  column : Nat
  deriving DecidableEq, Repr, Inhabited

structure Range where
  start : Point
  stop : Point
  startByte : Nat
  stopByte : Nat
  deriving DecidableEq, Repr, Inhabited

namespace Range

/-- The range of nodes that no source text stands for. -/
def zero : Range := ⟨⟨0, 0⟩, ⟨0, 0⟩, 0, 0⟩

def line (r : Range) : Nat := r.start.row + 1

def column (r : Range) : Nat := r.start.column + 1

def toText (r : Range) : String :=
  let line := toString r.line
  let column := toString r.column
  s!"{line}:{column}"

end Range

/-- A range in a file; code that was not read from a file has no name. -/
structure Position where
  file : Option String
  range : Range
  deriving DecidableEq, Repr

namespace Position

def fileText (p : Position) : String :=
  match p.file with
  | none | some "" => "<input>"
  | some f => f

def toText (p : Position) : String := p.fileText ++ ":" ++ p.range.toText

end Position

end PhpFlow
