import PhpFlow.Text.Table

/-!
# Blanks

White space of every script. Trimming and splitting also take the four separator controls for blanks.
-/
namespace PhpFlow.Text

def spaceTable : Table :=
  [(0x9, 0xD), (0x20, 0x20), (0x85, 0x85), (0xA0, 0xA0), (0x1680, 0x1680), (0x2000, 0x200A),
   (0x2028, 0x2029), (0x202F, 0x202F), (0x205F, 0x205F), (0x3000, 0x3000)]

def isSpace (c : Char) : Bool := spaceTable.holds c

def isBlank (c : Char) : Bool := isSpace c || (0x1C ≤ c.toNat && c.toNat ≤ 0x1F)

def dropEnd (p : Char → Bool) (cs : List Char) : List Char := (cs.reverse.dropWhile p).reverse

def trimChars (cs : List Char) : List Char := dropEnd isBlank (cs.dropWhile isBlank)

def trim (s : String) : String := String.ofList (trimChars s.toList)

def pieces (p : Char → Bool) (run : List Char) : List Char → List (List Char)
  | [] => if run.isEmpty then [] else [run.reverse]
  | c :: cs =>
    if p c then
      if run.isEmpty then pieces p [] cs else run.reverse :: pieces p [] cs
    else pieces p (c :: run) cs

def words (cs : List Char) : List (List Char) := pieces isBlank [] cs

end PhpFlow.Text
