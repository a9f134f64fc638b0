import PhpFlow.Text.Printable

/-!
# Quoted text

Messages quote text in single quotes, or in double quotes when it holds a single quote and no double
one. A backslash and the quote itself are preceded by a backslash; characters that cannot be shown are
written by their code.
-/
namespace PhpFlow.Text

def hexDigit (n : Nat) : Char :=
  if n < 10 then Char.ofNat (48 + n) else Char.ofNat (87 + n)

/-- The lowest `width` hexadecimal digits of a number. -/
def hex : Nat → Nat → List Char
  | 0, _ => []
  | width + 1, n => hex width (n / 16) ++ [hexDigit (n % 16)]

def escaped (q c : Char) : List Char :=
  if c = '\\' || c = q then ['\\', c]
  else if c = '\n' then ['\\', 'n']
  else if c = '\r' then ['\\', 'r']
  else if c = '\t' then ['\\', 't']
  else if isPrintable c then [c]
  else if c.toNat ≤ 0xFF then '\\' :: 'x' :: hex 2 c.toNat
  else if c.toNat ≤ 0xFFFF then '\\' :: 'u' :: hex 4 c.toNat
  else '\\' :: 'U' :: hex 8 c.toNat

def quoteFor (cs : List Char) : Char :=
  if cs.contains '\'' && !cs.contains '"' then '"' else '\''

def quoteChars (cs : List Char) : List Char :=
  let q := quoteFor cs
  q :: cs.flatMap (escaped q) ++ [q]

def quote (s : String) : String := String.ofList (quoteChars s.toList)

end PhpFlow.Text
