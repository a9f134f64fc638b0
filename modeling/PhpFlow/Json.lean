import PhpFlow.Text.Quoted

/-!
# JSON output

Documents are laid out with an indentation of two, in ASCII; other characters are written by their
16-bit units.
-/
namespace PhpFlow

inductive Json where
  | null
  | bool (b : Bool)
  /-- A number, as it is written. -/
  | number (text : String)
  | string (s : String)
  | array (items : List Json)
  | object (fields : List (String × Json))

namespace Json

def nat (n : Nat) : Json := number (toString n)

def ofText? : Option String → Json
  | none => null
  | some s => string s

/-- A character by its one or two 16-bit units. -/
def unitEscapes (n : Nat) : List Char :=
  if n < 0x10000 then '\\' :: 'u' :: Text.hex 4 n
  else
    let m := n - 0x10000
    '\\' :: 'u' :: Text.hex 4 (0xD800 + m / 0x400) ++
      '\\' :: 'u' :: Text.hex 4 (0xDC00 + m % 0x400)

def escapedChar (c : Char) : List Char :=
  if c = '"' || c = '\\' then ['\\', c]
  else if c = '\n' then ['\\', 'n']
  else if c = '\r' then ['\\', 'r']
  else if c = '\t' then ['\\', 't']
  else if c.toNat = 8 then ['\\', 'b']
  else if c.toNat = 12 then ['\\', 'f']
  else if 0x20 ≤ c.toNat && c.toNat ≤ 0x7E then [c]
  else unitEscapes c.toNat

def quoted (s : String) : String :=
  String.ofList ('"' :: s.toList.flatMap escapedChar ++ ['"'])

def newline (depth : Nat) : String := String.ofList ('\n' :: List.replicate (2 * depth) ' ')

mutual

def render (depth : Nat) : Json → String
  | null => "null"
  | bool b => if b then "true" else "false"
  | number t => t
  | string s => quoted s
  | array [] => "[]"
  | array (i :: is) =>
    "[" ++ newline (depth + 1) ++ (",".append (newline (depth + 1))).intercalate
      (renderItems (depth + 1) (i :: is)) ++ newline depth ++ "]"
  | object [] => "\x7b\x7d"
  | object (f :: fs) =>
    "\x7b" ++ newline (depth + 1) ++ (",".append (newline (depth + 1))).intercalate
      (renderFields (depth + 1) (f :: fs)) ++ newline depth ++ "\x7d"

def renderItems (depth : Nat) : List Json → List String
  | [] => []
  | i :: is => render depth i :: renderItems depth is

def renderFields (depth : Nat) : List (String × Json) → List String
  | [] => []
  | (k, v) :: fs => (quoted k ++ ": " ++ render depth v) :: renderFields depth fs

end

def toText (j : Json) : String := render 0 j

end Json

end PhpFlow
