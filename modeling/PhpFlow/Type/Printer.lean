import PhpFlow.Number.Limit
import PhpFlow.Type.Basic

/-!
# The text of types

Every type has a text, but one with a number among its keys that is too long to be written is not
written either.
-/
namespace PhpFlow

mutual

def Atom.toText : Atom → String
  | .primitive p => p.word
  | .list v => "array<" ++ v.toText ++ ">"
  | .map k v => "array<" ++ k.toText ++ ", " ++ v.toText ++ ">"
  | .shape fs => "array\x7b" ++ ", ".intercalate (fieldTexts fs) ++ "\x7d"
  | .callable as r => "callable(" ++ ", ".intercalate (unionTexts as) ++ ")" ++ resultText r
  | .named q _ => q.toText
  | .generic b as => b.toText ++ "<" ++ ", ".intercalate (unionTexts as) ++ ">"
  | .classConstant q c => q.toText ++ "::" ++ c
  | .reference k t =>
    match k, t with
    | .classString, some q => "class-string<" ++ q.toText ++ ">"
    | k, _ => k.word
  | .template n => n

def TypeUnion.toText : TypeUnion → String
  | ⟨[]⟩ => "*empty*"
  | ⟨a :: as⟩ => "|".intercalate (a.toText :: atomTexts as)

def atomTexts : List Atom → List String
  | [] => []
  | a :: as => a.toText :: atomTexts as

def unionTexts : List TypeUnion → List String
  | [] => []
  | u :: us => u.toText :: unionTexts us

def fieldTexts : List ShapeField → List String
  | [] => []
  | ⟨k, t, o⟩ :: fs => (k.toText ++ (if o then "?" else "") ++ ": " ++ t.toText) :: fieldTexts fs

def resultText : Option TypeUnion → String
  | none => ""
  | some u => ": " ++ u.toText

end

def ArrayKey.isWritable : ArrayKey → Bool
  | .int n => Number.isWritable n
  | .text _ => true

mutual

def Atom.isWritable : Atom → Bool
  | .list v => v.isWritable
  | .map k v => k.isWritable && v.isWritable
  | .shape fs => fieldsWritable fs
  | .callable as r => unionsWritable as && resultWritable r
  | .generic b as => b.isWritable && unionsWritable as
  | .primitive _ | .named _ _ | .classConstant _ _ | .reference _ _ | .template _ => true

def TypeUnion.isWritable : TypeUnion → Bool
  | ⟨as⟩ => atomsWritable as

def atomsWritable : List Atom → Bool
  | [] => true
  | a :: as => a.isWritable && atomsWritable as

def unionsWritable : List TypeUnion → Bool
  | [] => true
  | u :: us => u.isWritable && unionsWritable us

def fieldsWritable : List ShapeField → Bool
  | [] => true
  | ⟨k, t, _⟩ :: fs => k.isWritable && t.isWritable && fieldsWritable fs

def resultWritable : Option TypeUnion → Bool
  | none => true
  | some u => u.isWritable

end

def Atom.write (a : Atom) : Except Fault String :=
  if a.isWritable then .ok a.toText else .error .tooLongToWrite

def TypeUnion.write (u : TypeUnion) : Except Fault String :=
  if u.isWritable then .ok u.toText else .error .tooLongToWrite

end PhpFlow
