import PhpFlow.Type.Basic

/-!
# The canonical order of atoms

Every atom has a key, a list of tokens compared like words in a dictionary. Class names enter the key
without regard to case. Two atoms are the same type if their exact keys agree: there the owner of a
class constant and the target of a class string keep their case, while a class itself still does not.
A union holds its atoms by ascending key, and of several that are the same it keeps the first. It sorts a
set, so atoms that have the same key and are not the same stand as the set lists them. That order is a
parameter: nothing but the table behind the set decides it.
-/
namespace PhpFlow

/-- A token of a key; the end of a group comes before anything that would continue it. -/
inductive KeyToken where
  | stop
  | num (n : Int)
  | text (s : String)
  deriving DecidableEq, Repr

namespace KeyToken

def compare : KeyToken → KeyToken → Ordering
  | stop, stop => .eq
  | stop, _ => .lt
  | num _, stop => .gt
  | num a, num b => Ord.compare a b
  | num _, text _ => .lt
  | text a, text b => Ord.compare a b
  | text _, _ => .gt

/-- Word by word, a beginning before what it begins. -/
def compareList : List KeyToken → List KeyToken → Ordering
  | [], [] => .eq
  | [], _ :: _ => .lt
  | _ :: _, [] => .gt
  | a :: as, b :: bs => (compare a b).then (compareList as bs)

end KeyToken

open KeyToken

def ArrayKey.tokens : ArrayKey → List KeyToken
  | .int n => [.num 0, .num n, .text "", .stop]
  | .text s => [.num 1, .num 0, .text s, .stop]

def ownerToken (exact : Bool) (q : QualifiedName) : List KeyToken :=
  if exact then [.text q.toText] else [.text q.key]

def targetTokens (exact : Bool) : Option QualifiedName → List KeyToken
  | none => if exact then [.num 0] else [.text ""]
  | some q => if exact then [.num 1, .text q.toText] else [.text q.key]

mutual

def Atom.tokens (exact : Bool) : Atom → List KeyToken
  | .primitive p => [.num 0, .num p.order, .stop]
  | .list v => .num 1 :: v.tokens exact ++ [.stop]
  | .map k v => .num 2 :: k.tokens exact ++ v.tokens exact ++ [.stop]
  | .shape fs => .num 3 :: fieldTokens exact fs ++ [.stop]
  | .callable as r =>
    .num 4 :: unionTokens exact as ++ .stop :: resultTokens exact r ++ [.stop, .stop]
  | .named q _ => [.num 5, .text q.key, .stop]
  | .generic b as => .num 6 :: b.tokens exact ++ unionTokens exact as ++ [.stop, .stop]
  | .classConstant q c => .num 7 :: ownerToken exact q ++ [.text c, .stop]
  | .reference k t => .num 8 :: .text k.word :: targetTokens exact t ++ [.stop]
  | .template n => [.num 9, .text n, .stop]

def TypeUnion.tokens (exact : Bool) : TypeUnion → List KeyToken
  | ⟨as⟩ => atomTokens exact as ++ [.stop]

def atomTokens (exact : Bool) : List Atom → List KeyToken
  | [] => []
  | a :: as => a.tokens exact ++ atomTokens exact as

/-- A number opens each union, so that an empty one is not taken for the end of the list. -/
def unionTokens (exact : Bool) : List TypeUnion → List KeyToken
  | [] => []
  | u :: us => .num 0 :: u.tokens exact ++ unionTokens exact us

def fieldTokens (exact : Bool) : List ShapeField → List KeyToken
  | [] => []
  | ⟨k, t, o⟩ :: fs =>
    k.tokens ++ .num (if o then 1 else 0) :: t.tokens exact ++ .stop :: fieldTokens exact fs

def resultTokens (exact : Bool) : Option TypeUnion → List KeyToken
  | none => []
  | some u => .num 0 :: u.tokens exact

end

instance : BEq Atom := ⟨fun a b => decide (a.tokens true = b.tokens true)⟩

instance : BEq TypeUnion := ⟨fun u v => decide (u.tokens true = v.tokens true)⟩

def Atom.compare (a b : Atom) : Ordering := compareList (a.tokens false) (b.tokens false)

/-- Keeps the first of the atoms that are the same. -/
def Atom.distinct : List Atom → List Atom
  | [] => []
  | a :: as => a :: (distinct as).filter fun b => !(a == b)

/-- Puts an atom before the first of the others in order that does not come before it. -/
def Atom.place (a : Atom) : List Atom → List Atom
  | [] => [a]
  | b :: bs => if (a.compare b).isLE then a :: b :: bs else b :: a.place bs

/-- How a set lists the atoms that were put into it one after the other. -/
structure SetOrder where
  list : List Atom → List Atom
  perm (as : List Atom) : (list as).Perm as

namespace SetOrder

/-- The order of the sets that the program uses: what came last is listed first. -/
def latestFirst : SetOrder := ⟨List.reverse, List.reverse_perm⟩

variable (σ : SetOrder)

/-- Sorts the set of the atoms by key. -/
def ofList (as : List Atom) : TypeUnion := ⟨(σ.list (Atom.distinct as)).foldr Atom.place []⟩

def union (u v : TypeUnion) : TypeUnion := σ.ofList (u.atoms ++ v.atoms)

def flatten (us : List TypeUnion) : TypeUnion := σ.ofList (us.flatMap TypeUnion.atoms)

end SetOrder

namespace TypeUnion

def ofList (as : List Atom) : TypeUnion := SetOrder.latestFirst.ofList as

def single (a : Atom) : TypeUnion := ⟨[a]⟩

def prim (p : Primitive) : TypeUnion := single (.primitive p)

def empty : TypeUnion := ⟨[]⟩

def union (u v : TypeUnion) : TypeUnion := SetOrder.latestFirst.union u v

def flatten (us : List TypeUnion) : TypeUnion := SetOrder.latestFirst.flatten us

def filter (p : Atom → Bool) (u : TypeUnion) : TypeUnion := ofList (u.atoms.filter p)

end TypeUnion

end PhpFlow
