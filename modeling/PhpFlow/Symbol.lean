import PhpFlow.Type.Query
import PhpFlow.Value.Basic

/-!
# Symbols

The classes, functions and constants of the analysed files, each in the order of declaration. The first
declaration of a name counts. Classes and functions are found by key, constants by exact name.
-/
namespace PhpFlow

inductive ClassKind where
  | plain | interface | trait
  deriving DecidableEq, Repr

structure FunctionSymbol where
  name : QualifiedName
  declared : Option TypeUnion := none
  comment : Option TypeUnion := none
  inferred : Option TypeUnion := none
  params : List String := []

/-- The declared return type, or else that of the doc comment, or else what the body returns. -/
def FunctionSymbol.returnType (f : FunctionSymbol) : Option TypeUnion :=
  f.declared <|> f.comment <|> f.inferred

structure ClassSymbol where
  name : QualifiedName
  kind : ClassKind := .plain
  parent : Option QualifiedName := none
  interfaces : List QualifiedName := []
  /-- Methods by their names in lower case. -/
  methods : List (String × FunctionSymbol) := []

namespace ClassSymbol

def method? (c : ClassSymbol) (name : String) : Option FunctionSymbol :=
  c.methods.lookup (Text.lower name)

/-- Puts a method under its lower-case name, in the place of one that is there. -/
def setEntry (key : String) (f : FunctionSymbol) :
    List (String × FunctionSymbol) → List (String × FunctionSymbol)
  | [] => [(key, f)]
  | (k, g) :: rest => if k = key then (k, f) :: rest else (k, g) :: setEntry key f rest

def setMethod (c : ClassSymbol) (name : String) (f : FunctionSymbol) : ClassSymbol :=
  { c with methods := setEntry (Text.lower name) f c.methods }

def bases (c : ClassSymbol) : List QualifiedName := c.parent.toList ++ c.interfaces

end ClassSymbol

structure ConstantSymbol where
  name : QualifiedName
  type : Option TypeUnion := none
  value : Option Value := none

structure SymbolTable where
  classes : List ClassSymbol := []
  functions : List FunctionSymbol := []
  constants : List ConstantSymbol := []

namespace SymbolTable

def class? (t : SymbolTable) (q : QualifiedName) : Option ClassSymbol :=
  t.classes.find? fun c => c.name.key = q.key

def function? (t : SymbolTable) (q : QualifiedName) : Option FunctionSymbol :=
  t.functions.find? fun f => f.name.key = q.key

def constant? (t : SymbolTable) (q : QualifiedName) : Option ConstantSymbol :=
  t.constants.find? fun c => c.name.toText = q.toText

def addClass (t : SymbolTable) (c : ClassSymbol) : SymbolTable :=
  if (t.class? c.name).isSome then t else { t with classes := t.classes ++ [c] }

def addFunction (t : SymbolTable) (f : FunctionSymbol) : SymbolTable :=
  if (t.function? f.name).isSome then t else { t with functions := t.functions ++ [f] }

def addConstant (t : SymbolTable) (c : ConstantSymbol) : SymbolTable :=
  if (t.constant? c.name).isSome then t else { t with constants := t.constants ++ [c] }

def updateClass (t : SymbolTable) (q : QualifiedName) (f : ClassSymbol → ClassSymbol) : SymbolTable :=
  { t with classes := t.classes.map fun c => if c.name.key = q.key then f c else c }

def updateFunction (t : SymbolTable) (q : QualifiedName) (f : FunctionSymbol → FunctionSymbol) :
    SymbolTable :=
  { t with functions := t.functions.map fun g => if g.name.key = q.key then f g else g }

def size (t : SymbolTable) : Nat := t.classes.length + t.functions.length + t.constants.length

def find? (cs : List ClassSymbol) (key : String) : Option ClassSymbol :=
  cs.find? fun c => c.name.key = key

def remove (cs : List ClassSymbol) (key : String) : List ClassSymbol :=
  cs.filter fun c => c.name.key ≠ key

theorem length_remove_lt {cs : List ClassSymbol} {key : String} {c : ClassSymbol}
    (h : find? cs key = some c) : (remove cs key).length < cs.length := by
  have hm := List.mem_of_find?_eq_some h
  have hk := List.find?_some h
  exact List.length_filter_lt_length_iff_exists.2 ⟨c, hm, by simpa using hk⟩

/-- Follows the hierarchy up from the `pending` names through the classes that are `unseen` so far. -/
def searchUp (t : SymbolTable) (target : String) (unseen : List ClassSymbol)
    (pending : List QualifiedName) (complete : Bool) : Option Bool :=
  match pending with
  | [] => if complete then some false else none
  | q :: pending =>
    if q.key = target then some true
    else
      match _h : find? unseen q.key with
      | some c => searchUp t target (remove unseen q.key) (c.bases ++ pending) complete
      | none => searchUp t target unseen pending (complete && (t.class? q).isSome)
termination_by (unseen.length, pending.length)
decreasing_by
  · exact Prod.Lex.left _ _ (length_remove_lt _h)
  · exact Prod.Lex.right _ (by simp)

/-- Whether a class is another one or derives from it; undecided if the classes above it are not all
known. -/
def derives? (t : SymbolTable) (child ancestor : QualifiedName) : Option Bool :=
  t.searchUp ancestor.key t.classes [child] true

def derives (t : SymbolTable) (child ancestor : QualifiedName) : Bool :=
  t.derives? child ancestor == some true

end SymbolTable

end PhpFlow
