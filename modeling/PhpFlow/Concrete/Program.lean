import PhpFlow.Concrete.Statement

/-!
# Reading programs

A concrete tree is read from its leaves up. Along the way the doc comments are given to the nodes they
stand before.
-/
namespace PhpFlow

namespace Mark

def isDoc (m : Mark) : Bool := m.type == "comment" && m.text.startsWith "/**"

/-- The doc comment for the next node: one that a token divides from its comment still has it. -/
def docAfter (m : Mark) (doc : Option String) : Option String :=
  if m.named then if m.isDoc then some m.text else none else doc

end Mark

def Reading.ofMark (m : Mark) (children : List Reading) : Reading :=
  let bare : Reading := ⟨m, children, .ok (.empty m.range), .ok (.null m.range)⟩
  ⟨m, children, bare.toStmt, bare.toExpr⟩

mutual

def Concrete.read (src : SourceText) (doc : Option String) : Concrete → Reading
  | ⟨type, start, stop, named, missing, field, children⟩ =>
    .ofMark ⟨type, src.range start stop, src.slice start stop, named, missing, field, doc⟩
      (readChildren src none children)

def readChildren (src : SourceText) (doc : Option String) : List Concrete → List Reading
  | [] => []
  | c :: cs =>
    let r := c.read src doc
    r :: readChildren src (r.mark.docAfter doc) cs

end

def Concrete.program (c : Concrete) (src : SourceText) : Except BuildError Stmt :=
  let r := c.read src none
  if r.type == "program" then
    (Reading.statements r.children).map fun ss => .program r.range ss
  else .error (.unexpected r.range "program" r.type)

end PhpFlow
