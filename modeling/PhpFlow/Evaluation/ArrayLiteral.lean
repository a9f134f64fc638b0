import PhpFlow.Evaluation.Meaning

/-!
# Array literals

An array literal is a constant if all of its elements are. Otherwise it has a shape if at least its keys
are known, and else the type of a list or a map.
-/
namespace PhpFlow

structure ElementMeaning where
  value : Meaning
  key : Option Meaning
  spread : Bool
  byRef : Bool

/-- The key of an element and the number for the next one without a key. -/
def IndexKey.place? (next : Int) : IndexKey → Option (ArrayKey × Int)
  | absent => some (ArrayKey.orNext next none)
  | unknown => none
  | known k => some (ArrayKey.orNext next (some k))

def Value.setEntry (k : ArrayKey) (v : Value) : List (ArrayKey × Value) → List (ArrayKey × Value)
  | [] => [(k, v)]
  | (l, w) :: es => if l = k then (l, v) :: es else (l, w) :: setEntry k v es

/-- Puts a field at the end, in place of an earlier one with its key. -/
def ShapeField.append (f : ShapeField) (fs : List ShapeField) : List ShapeField :=
  fs.filter (fun g => g.key ≠ f.key) ++ [f]

namespace ArrayLiteral

def valueFrom (next : Int) (entries : List (ArrayKey × Value)) :
    List ElementMeaning → Query (Option Value)
  | [] => pure (some (.array entries))
  | e :: es =>
    if e.spread || e.byRef then pure none
    else do
      match ← e.value.value with
      | none => return none
      | some v =>
        let key ← Meaning.key e.key
        match key.place? next with
        | none => return none
        | some (k, next) => valueFrom next (Value.setEntry k v entries) es

structure Scan where
  next : Int
  /-- The fields, unless some key is not known. -/
  fields : Option (List ShapeField)
  valueTypes : List TypeUnion

def Scan.start : Scan := ⟨0, some [], []⟩

/-- An element that is spread, or has a key that is not known, spoils the shape. -/
def Scan.add (s : Scan) (e : ElementMeaning) : Query Scan := do
  let t ← e.value.type
  let u := t.getD (.prim .mixed)
  if e.spread then
    return { s with fields := none, valueTypes := s.valueTypes ++ [u.elementTypes.2] }
  else
    let valueTypes := s.valueTypes ++ [u]
    let key ← Meaning.key e.key
    match key.place? s.next with
    | none => return { s with fields := none, valueTypes }
    | some (k, next) =>
      return ⟨next, s.fields.map (ShapeField.append ⟨k, u, false⟩), valueTypes⟩

def scan : Scan → List ElementMeaning → Query Scan
  | s, [] => pure s
  | s, e :: es => do
    let s ← s.add e
    scan s es

def typeOf (es : List ElementMeaning) (s : Scan) : TypeUnion :=
  match s.fields with
  | some fs => .single (.shape fs)
  | none =>
    if es.all fun e => e.key.isNone then .single (.list (.flatten s.valueTypes))
    else .single (.map .anyKey (.flatten s.valueTypes))

def meaning (es : List ElementMeaning) : Meaning where
  type := do
    match ← valueFrom 0 [] es with
    | some v => return some v.type
    | none => do
      let s ← scan .start es
      return some (typeOf es s)
  value := valueFrom 0 [] es

end ArrayLiteral

end PhpFlow
