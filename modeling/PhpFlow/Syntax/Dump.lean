import PhpFlow.Json
import PhpFlow.Number.Shortest
import PhpFlow.Syntax.Outline

/-!
# Dumps of trees

A tree is shown as an S-expression without places, in which absent, empty and false fields are left out,
or as a JSON document with all fields and with lines and columns.
-/
namespace PhpFlow

/-- Doubles in JSON documents. -/
def jsonLayout : Number.Layout := ⟨'e', "NaN", "Infinity", "-Infinity"⟩

namespace Sexp

def escapedChar (c : Char) : List Char :=
  if c = '"' || c = '\\' then ['\\', c]
  else if c = '\n' then ['\\', 'n']
  else if c = '\r' then ['\\', 'r']
  else if c = '\t' then ['\\', 't']
  else if c.toNat = 8 then ['\\', 'b']
  else if c.toNat = 12 then ['\\', 'f']
  else [c]

def quoted (s : String) : String :=
  String.ofList ('"' :: s.toList.flatMap escapedChar ++ ['"'])

def list (items : List String) : String := "(" ++ " ".intercalate items ++ ")"

end Sexp

mutual

def Outline.sexp : Outline → String
  | ⟨k, _, fs⟩ => Sexp.list (k.tag :: sexpFields fs)

def sexpFields : List (String × FieldValue) → List String
  | [] => []
  | (n, v) :: fs =>
    match sexpValue? v with
    | none => sexpFields fs
    | some t => Sexp.list [":" ++ n, t] :: sexpFields fs

/-- A field that is worth showing. -/
def sexpValue? : FieldValue → Option String
  | .absent => none
  | .text s => some (Sexp.quoted s)
  | .integer n => some (toString n)
  | .float x => some (Number.plainLayout.render x)
  | .flag b => if b then some "true" else none
  | .texts [] => none
  | .texts (s :: ss) => some (Sexp.list ((s :: ss).map Sexp.quoted))
  | .node o => some o.sexp
  | .nodes [] => none
  | .nodes (o :: os) => some (Sexp.list (o.sexp :: sexpNodes os))

def sexpNodes : List Outline → List String
  | [] => []
  | o :: os => o.sexp :: sexpNodes os

end

mutual

def Outline.toJson : Outline → Json
  | ⟨k, r, fs⟩ =>
    .object (("kind", .string k.tag) :: ("line", .nat r.line) :: ("column", .nat r.column) ::
      jsonFields fs)

def jsonFields : List (String × FieldValue) → List (String × Json)
  | [] => []
  | (n, v) :: fs => (n, jsonValue v) :: jsonFields fs

def jsonValue : FieldValue → Json
  | .absent => .null
  | .text s => .string s
  | .integer n => .number (toString n)
  | .float x => .number (jsonLayout.render x)
  | .flag b => .bool b
  | .texts ss => .array (ss.map .string)
  | .node o => o.toJson
  | .nodes os => .array (jsonNodes os)

def jsonNodes : List Outline → List Json
  | [] => []
  | o :: os => o.toJson :: jsonNodes os

end

end PhpFlow
