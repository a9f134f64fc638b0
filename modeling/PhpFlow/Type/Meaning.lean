import PhpFlow.Number.Limit
import PhpFlow.Text.Quoted
import PhpFlow.Type.Grammar
import PhpFlow.Type.Order

/-!
# The meaning of type texts

Words such as `int` and `array-key` stand for primitives, other names for classes, found in the
namespace and the imports of the place where the text stands.
-/
namespace PhpFlow

/-- What names in a type text refer to, and how the sets list what is read. -/
structure NameContext where
  resolve : String → QualifiedName
  templates : List String
  order : SetOrder := .latestFirst

/-- Names are taken as they are written, and there are no templates. -/
def NameContext.global : NameContext := { resolve := QualifiedName.ofText, templates := [] }

def builtinWords : List (String × List Primitive) :=
  [("null", [.null]), ("void", [.void]), ("int", [.int]), ("integer", [.int]),
   ("positive-int", [.int]), ("negative-int", [.int]), ("float", [.float]), ("double", [.float]),
   ("string", [.string]), ("non-empty-string", [.string]), ("numeric-string", [.string]),
   ("bool", [.bool]), ("boolean", [.bool]), ("true", [.literalTrue]), ("false", [.literalFalse]),
   ("mixed", [.mixed]), ("resource", [.resource]), ("array", [.array]), ("list", [.array]),
   ("object", [.object]), ("callable", [.callable]), ("iterable", [.iterable]), ("never", [.never]),
   ("array-key", [.int, .string]), ("numeric", [.int, .float]),
   ("scalar", [.bool, .float, .int, .string])]

/-- The classes of arrays that take their element types as parameters. -/
def listWords : List String := ["array", "list", "non-empty-array", "non-empty-list"]

def isQualified (text : String) : Bool := text.toList.contains '\\'

def withoutLeadingSlashes (text : String) : String :=
  String.ofList (text.toList.dropWhile (· = '\\'))

namespace NameContext

def resolveName (ctx : NameContext) (text : String) : QualifiedName :=
  if text.startsWith "\\" then .ofText text else ctx.resolve text

/-- An unqualified word with a meaning of its own. -/
def ownWord? (ctx : NameContext) (text : String) : Option (Atom × List Atom) :=
  if isQualified text then none
  else
    let w := Text.lower text
    match builtinWords.lookup w with
    | some (p :: ps) => some (.primitive p, ps.map .primitive)
    | _ =>
      if w = "self" then some (.reference .self none, [])
      else if w = "static" then some (.reference .static none, [])
      else if w = "class-string" then some (.reference .classString none, [])
      else if ctx.templates.contains text then some (.template text, [])
      else none

/-- The atoms a name stands for, at least one. -/
def atomsOf (ctx : NameContext) (text : String) : Atom × List Atom :=
  match ctx.ownWord? text with
  | some as => as
  | none => (.named (ctx.resolveName text) (withoutLeadingSlashes text), [])

/-- The class before `::`. A word with a meaning of its own is then just a name. -/
def ownerOf (ctx : NameContext) (text : String) : QualifiedName :=
  match ctx.ownWord? text with
  | some _ => .ofText text
  | none => ctx.resolveName text

def genericAtom (ctx : NameContext) (text : String) (args : List TypeUnion) : Atom :=
  let w := Text.lower text
  let plain :=
    match ctx.atomsOf text with
    | (a, []) => .generic a args
    | (a, _) => a
  match args with
  | [v] =>
    if listWords.contains w then .list v
    else if w = "class-string" then
      match v.atoms with
      | [.named q _] => .reference .classString (some q)
      | _ => .reference .classString none
    else plain
  | [k, v] => if listWords.contains w then .map k v else plain
  | _ => plain

end NameContext

/-- The key an entry of a shape is labelled with, unless the number has too many digits. -/
def EntryLabel.key? : EntryLabel → Option ArrayKey
  | .word s => some (.text s)
  | .number negative ds =>
    if Number.digitLimit < ds.length then none
    else
      let n : Nat := ds.foldl (fun n d => 10 * n + (d.toNat - 48)) 0
      some (.int (if negative then -(n : Int) else n))

/-- Wraps a type in as many lists as there are pairs of brackets. -/
def TypeUnion.nest : Nat → TypeUnion → TypeUnion
  | 0, u => u
  | n + 1, u => nest n (.single (.list u))

mutual

def TypeHead.union? (ctx : NameContext) : TypeHead → Option TypeUnion
  | .constant owner c => some (.single (.classConstant (ctx.ownerOf owner) c))
  | .shape es => (entryFields? ctx 0 es).map fun fs => .single (.shape fs)
  | .callable as r => do
    let us ← unions? ctx as
    let v ← resultUnion? ctx r
    return .single (.callable us v)
  | .tuple es => (tupleFields? ctx 0 es).map fun fs => .single (.shape fs)
  | .generic n as => (unions? ctx as).map fun us => .single (ctx.genericAtom n us)
  | .genericAny n => some (.single (ctx.genericAtom n [.prim .mixed]))
  | .name n =>
    let (a, as) := ctx.atomsOf n
    some (ctx.order.ofList (a :: as))

def TypeAlternative.union? (ctx : NameContext) : TypeAlternative → Option TypeUnion
  | ⟨nullable, h, k⟩ =>
    (h.union? ctx).map fun u =>
      let u := u.nest k
      if nullable then ctx.order.union u (.prim .null) else u

def TypeExpr.union? (ctx : NameContext) : TypeExpr → Option TypeUnion
  | ⟨as⟩ => (alternativeUnions? ctx as).map ctx.order.flatten

def alternativeUnions? (ctx : NameContext) : List TypeAlternative → Option (List TypeUnion)
  | [] => some []
  | a :: as => do
    let u ← a.union? ctx
    let us ← alternativeUnions? ctx as
    return u :: us

def unions? (ctx : NameContext) : List TypeExpr → Option (List TypeUnion)
  | [] => some []
  | t :: ts => do
    let u ← t.union? ctx
    let us ← unions? ctx ts
    return u :: us

def resultUnion? (ctx : NameContext) : Option TypeExpr → Option (Option TypeUnion)
  | none => some none
  | some t => (t.union? ctx).map some

/-- The fields of a shape, numbered from `next` on where they have no label. -/
def entryFields? (ctx : NameContext) (next : Int) : List TypeEntry → Option (List ShapeField)
  | [] => some []
  | ⟨l, o, t⟩ :: es => do
    let written ←
      match l with
      | none => some none
      | some l => l.key?.map some
    let (k, next) := ArrayKey.orNext next written
    let u ← t.union? ctx
    let fs ← entryFields? ctx next es
    return ⟨k, u, o⟩ :: fs

/-- The members of a tuple are numbered from `next` on. -/
def tupleFields? (ctx : NameContext) (next : Nat) : List TypeExpr → Option (List ShapeField)
  | [] => some []
  | t :: ts => do
    let u ← t.union? ctx
    let fs ← tupleFields? ctx (next + 1) ts
    return ⟨.int next, u, false⟩ :: fs

end

/-- Why a text is not a type: nothing at its front is one, or something follows the type. -/
structure TypeSyntaxError where
  text : String
  offset : Nat
  unexpected : Option String
  deriving DecidableEq, Repr

def TypeSyntaxError.message (e : TypeSyntaxError) : String :=
  let quoted := Text.quote e.text
  let offset := toString e.offset
  let base := s!"cannot parse type {quoted} at offset {offset}"
  match e.unexpected with
  | none => base
  | some rest => base ++ ": unexpected " ++ Text.quote rest

namespace NameContext

def readPart? (ctx : NameContext) (cs : List Char) : Option (TypeUnion × List Char) :=
  match TypeExpr.read? cs with
  | none => none
  | some (t, rest) => (t.union? ctx).map fun u => (u, rest)

/-- Reads a text that is a type from end to end, blanks aside. -/
def read (ctx : NameContext) (text : String) : Except TypeSyntaxError TypeUnion :=
  let cs := text.toList
  match ctx.readPart? cs with
  | none => .error ⟨text, 0, none⟩
  | some (u, rest) =>
    let left := Text.trimChars rest
    if left.isEmpty then .ok u
    else .error ⟨text, cs.length - rest.length, some (String.ofList left)⟩

end NameContext

end PhpFlow
