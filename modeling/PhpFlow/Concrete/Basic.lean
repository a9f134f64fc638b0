import PhpFlow.Source
import PhpFlow.Text.Utf8

/-!
# Concrete syntax trees

A parser gives a tree over the bytes of the source in which every token is a node. Named nodes stand for
constructs, the others for keywords and punctuation. Where the source is broken there are nodes of the
type `ERROR`, and nodes for tokens that are missing.
-/
namespace PhpFlow

structure Concrete where
  type : String
  start : Nat
  stop : Nat
  named : Bool
  /-- The node stands for something that the source lacks. -/
  missing : Bool
  /-- What the node is to its parent. -/
  field : Option String
  children : List Concrete
  deriving Inhabited

mutual

def Concrete.hasError : Concrete → Bool
  | ⟨type, _, _, _, missing, _, children⟩ => type == "ERROR" || missing || anyError children

def anyError : List Concrete → Bool
  | [] => false
  | c :: cs => c.hasError || anyError cs

end

structure SourceText where
  bytes : List UInt8

namespace SourceText

def ofText (s : String) : SourceText := ⟨Text.bytes s⟩

def point (s : SourceText) (offset : Nat) : Point :=
  let before := s.bytes.take offset
  ⟨before.count 10, (before.reverse.takeWhile (· != 10)).length⟩

def range (s : SourceText) (start stop : Nat) : Range := ⟨s.point start, s.point stop, start, stop⟩

def slice (s : SourceText) (start stop : Nat) : String :=
  Text.decode ((s.bytes.drop start).take (stop - start))

end SourceText

end PhpFlow
