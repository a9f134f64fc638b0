import PhpFlow.Concrete.Basic
import PhpFlow.Text.Blank

/-!
# Written trees

A parser hands its tree over as text, a line for each node in the order of the source: how deep the node
lies, its first byte and the byte after its last one, the letters `n` if it is named and `m` if it stands
for something missing or a dash for neither, its role in its parent or a dash, and its type.
-/
namespace PhpFlow.Concrete

def ofWords? : List (List Char) → Option (Nat × Concrete)
  | depth :: start :: stop :: flags :: field :: type => do
    let depth ← (String.ofList depth).toNat?
    let start ← (String.ofList start).toNat?
    let stop ← (String.ofList stop).toNat?
    let field := if field = ['-'] then none else some (String.ofList field)
    let type := " ".intercalate (type.map String.ofList)
    some (depth, ⟨type, start, stop, flags.contains 'n', flags.contains 'm', field, []⟩)
  | _ => none

/-- Gives every node the deeper ones after it as its children. -/
def assemble (nodes : List (Nat × Concrete)) : List (Nat × Concrete) :=
  nodes.foldr
    (fun (depth, node) pending =>
      let children := pending.takeWhile fun p => depth < p.1
      (depth, { node with children := children.map (·.2) }) :: pending.drop children.length) []

def ofText? (text : String) : Option Concrete := do
  let lines := Text.pieces (· = '\n') [] text.toList
  let nodes ← lines.mapM fun l => ofWords? (Text.words l)
  (assemble nodes).head?.map (·.2)

end PhpFlow.Concrete
