import PhpFlow.Number.Numeral
import PhpFlow.Text.Lower

/-!
# Literals

How numbers and strings are spelt in source code.
-/
namespace PhpFlow.Literal

/-- The value of a digit or a small letter in a base. -/
def digitIn? (base : Nat) (c : Char) : Option Nat :=
  let v :=
    match Text.digitValue? c with
    | some d => some d
    | none => if c.isLower then some (c.toNat - 87) else none
  v.filter (· < base)

def natIn? (base : Nat) (cs : List Char) : Option Nat :=
  if cs.isEmpty then none
  else (cs.mapM (digitIn? base)).map fun ds => ds.foldl (fun n d => base * n + d) 0

def trimSpaces (cs : List Char) : List Char := Text.dropEnd Text.isSpace (cs.dropWhile Text.isSpace)

/-- A decimal integer; one with too many digits is none. -/
def decimal? (cs : List Char) : Option Int :=
  let (negative, ds) := Numeral.sign (trimSpaces cs)
  if Number.digitLimit < ds.length then none
  else (natIn? 10 ds).map fun n => if negative then -(n : Int) else n

/-- An integer literal. The front tells the base, and underscores may stand between digits. -/
def int? (text : String) : Option Int :=
  let cs := (Text.lower (String.ofList (text.toList.filter (· ≠ '_')))).toList
  match cs with
  | '0' :: 'x' :: ds => inBase 16 ds
  | '0' :: 'b' :: ds => inBase 2 ds
  | '0' :: 'o' :: ds => inBase 8 ds
  | '0' :: d :: ds => inBase 8 ('0' :: d :: ds)
  | _ => decimal? cs
where
  inBase (base : Nat) (ds : List Char) : Option Int :=
    (natIn? base (Text.dropEnd Text.isSpace ds)).map Int.ofNat

def special? (word : String) : Option Float :=
  if word = "inf" || word = "infinity" then some (1.0 / 0.0)
  else if word = "nan" then some (0.0 / 0.0)
  else none

def float? (text : String) : Option Float :=
  let cs := trimSpaces (text.toList.filter (· ≠ '_'))
  match Numeral.scan? cs with
  | some (n, []) =>
    let fraction := n.fraction.getD []
    some (Numeral.toDouble n.negative (n.whole ++ fraction) (n.exponent.getD 0 - fraction.length))
  | some _ => none
  | none =>
    let (negative, word) := Numeral.sign cs
    (special? (Text.lower (String.ofList word))).map fun x => if negative then -x else x

def escape? : Char → Option Char
  | 'n' => some '\n'
  | 't' => some '\t'
  | 'r' => some '\r'
  | 'v' => some '\x0b'
  | 'f' => some '\x0c'
  | 'e' => some '\x1b'
  | '0' => some '\x00'
  | '\\' => some '\\'
  | '$' => some '$'
  | '"' => some '"'
  | _ => none

/-- The text between double quotes; a backslash before anything but an escape stands for itself. -/
def doubleQuoted : List Char → List Char
  | [] => []
  | '\\' :: c :: cs =>
    match escape? c with
    | some d => d :: doubleQuoted cs
    | none => '\\' :: doubleQuoted (c :: cs)
  | c :: cs => c :: doubleQuoted cs

/-- Every `a` with `b` behind it, from left to right, replaced by `c`. -/
def replacePair (a b c : Char) : List Char → List Char
  | x :: y :: cs =>
    if x = a ∧ y = b then c :: replacePair a b c cs else x :: replacePair a b c (y :: cs)
  | cs => cs

/-- A null character keeps the place of a backslash. -/
def restore (c : Char) : Char := if c = '\x00' then '\\' else c

/-- The text between single quotes, where only backslash and quote are escaped. -/
def singleQuoted (cs : List Char) : List Char :=
  (replacePair '\\' '\'' '\'' (replacePair '\\' '\\' '\x00' cs)).map restore

end PhpFlow.Literal
