/-!
# Blanks, comments and strings in TOML

Each reader gives what it reads with the characters that follow, or nothing if the text is malformed there.
-/
namespace PhpFlow.Toml

/-! ## Blanks and comments -/

def isBlank (c : Char) : Bool := c = ' ' || c = '\t'

def skipBlanks (cs : List Char) : List Char := cs.dropWhile isBlank

/-- Characters that may stand neither in a string on one line nor in a comment. -/
def isControl (c : Char) : Bool := (c.toNat < 0x20 && c != '\t') || c.toNat = 0x7F

mutual

def skipSpace : List Char → Option (List Char)
  | [] => some []
  | c :: cs =>
    if isBlank c || c = '\n' then skipSpace cs
    else if c = '#' then skipComment cs
    else some (c :: cs)

/-- Skips the rest of a comment and the space after it. -/
def skipComment : List Char → Option (List Char)
  | [] => some []
  | c :: cs => if c = '\n' then skipSpace cs else if isControl c then none else skipComment cs

end

/-! ## Escapes -/

def hexValue? (c : Char) : Option Nat :=
  if '0' ≤ c && c ≤ '9' then some (c.toNat - 48)
  else if 'a' ≤ c && c ≤ 'f' then some (c.toNat - 87)
  else if 'A' ≤ c && c ≤ 'F' then some (c.toNat - 55)
  else none

def charOfHex? (ds : List Char) : Option Char := do
  let n ← ds.foldlM (fun n d => (hexValue? d).map (16 * n + ·)) 0
  if n.isValidChar then some (Char.ofNat n) else none

def escapedChar? : Char → Option Char
  | 'b' => some '\x08'
  | 't' => some '\t'
  | 'n' => some '\n'
  | 'f' => some '\x0c'
  | 'r' => some '\r'
  | '"' => some '"'
  | '\\' => some '\\'
  | _ => none

def prepend (c : Char) : List Char × List Char → List Char × List Char
  | (t, rest) => (c :: t, rest)

/-! ## Strings on one line -/

def basicText : List Char → Option (List Char × List Char)
  | [] => none
  | '"' :: cs => some ([], cs)
  | '\\' :: 'u' :: a :: b :: c :: d :: cs => do
    let x ← charOfHex? [a, b, c, d]
    (basicText cs).map (prepend x)
  | '\\' :: 'U' :: a :: b :: c :: d :: e :: f :: g :: h :: cs => do
    let x ← charOfHex? [a, b, c, d, e, f, g, h]
    (basicText cs).map (prepend x)
  | '\\' :: c :: cs => do
    let x ← escapedChar? c
    (basicText cs).map (prepend x)
  | c :: cs => if isControl c then none else (basicText cs).map (prepend c)

def literalText : List Char → Option (List Char × List Char)
  | [] => none
  | '\'' :: cs => some ([], cs)
  | c :: cs => if isControl c then none else (literalText cs).map (prepend c)

/-! ## Strings on several lines -/

/-- What a backslash at the end of a line has left to skip. -/
inductive Skipping where
  | nothing
  /-- The blanks before the end of the line. -/
  | line
  /-- Blanks and ends of lines. -/
  | space
  deriving DecidableEq, Repr

def basicLines : Skipping → List Char → Option (List Char × List Char)
  | _, [] => none
  | .line, c :: cs =>
    if isBlank c then basicLines .line cs else if c = '\n' then basicLines .space cs else none
  | .space, ' ' :: cs | .space, '\t' :: cs | .space, '\n' :: cs => basicLines .space cs
  | _, '"' :: '"' :: '"' :: cs => some ([], cs)
  | _, '\\' :: ' ' :: cs | _, '\\' :: '\t' :: cs => basicLines .line cs
  | _, '\\' :: '\n' :: cs => basicLines .space cs
  | _, '\\' :: 'u' :: a :: b :: c :: d :: cs => do
    let x ← charOfHex? [a, b, c, d]
    (basicLines .nothing cs).map (prepend x)
  | _, '\\' :: 'U' :: a :: b :: c :: d :: e :: f :: g :: h :: cs => do
    let x ← charOfHex? [a, b, c, d, e, f, g, h]
    (basicLines .nothing cs).map (prepend x)
  | _, '\\' :: c :: cs => do
    let x ← escapedChar? c
    (basicLines .nothing cs).map (prepend x)
  | _, c :: cs =>
    if isControl c && c != '\n' then none else (basicLines .nothing cs).map (prepend c)

def literalLines : List Char → Option (List Char × List Char)
  | [] => none
  | '\'' :: '\'' :: '\'' :: cs => some ([], cs)
  | c :: cs => if isControl c && c != '\n' then none else (literalLines cs).map (prepend c)

/-- Up to two quotes right after the closing ones belong to the string. -/
def closingQuotes (quote : Char) : List Char × List Char → List Char × List Char
  | (t, a :: b :: rest) =>
    if a != quote then (t, a :: b :: rest)
    else if b != quote then (t ++ [a], b :: rest)
    else (t ++ [a, b], rest)
  | (t, [a]) => if a != quote then (t, [a]) else (t ++ [a], [])
  | (t, []) => (t, [])

/-- The end of a line right after the opening quotes does not count. -/
def dropLineEnd : List Char → List Char
  | '\n' :: cs => cs
  | cs => cs

def string : List Char → Option (String × List Char)
  | '"' :: '"' :: '"' :: cs => written ((basicLines .nothing (dropLineEnd cs)).map (closingQuotes '"'))
  | '\'' :: '\'' :: '\'' :: cs => written ((literalLines (dropLineEnd cs)).map (closingQuotes '\''))
  | '"' :: cs => written (basicText cs)
  | '\'' :: cs => written (literalText cs)
  | _ => none
where
  written (read : Option (List Char × List Char)) : Option (String × List Char) :=
    read.map fun (t, rest) => (String.ofList t, rest)

end PhpFlow.Toml
