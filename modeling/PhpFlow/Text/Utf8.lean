/-!
# Bytes of text

Positions in a source count bytes. A cut between two positions may fall inside a character; what is
left of it then reads as one replacement character.
-/
namespace PhpFlow.Text

def bytes (s : String) : List UInt8 := s.toUTF8.data.toList

/-- A character of which `need` bytes are still to come, the next of them from `low` to `high`. -/
structure Pending where
  need : Nat
  code : Nat
  low : Nat
  high : Nat

def replacement : Char := '�'

/-- What a first byte gives: a character at once, or one that waits for more bytes. -/
def leadByte (b : Nat) : Except Char Pending :=
  if b < 0x80 then .error (Char.ofNat b)
  else if b < 0xC2 then .error replacement
  else if b ≤ 0xDF then .ok ⟨1, b - 0xC0, 0x80, 0xBF⟩
  else if b = 0xE0 then .ok ⟨2, 0, 0xA0, 0xBF⟩
  else if b = 0xED then .ok ⟨2, 0xD, 0x80, 0x9F⟩
  else if b ≤ 0xEF then .ok ⟨2, b - 0xE0, 0x80, 0xBF⟩
  else if b = 0xF0 then .ok ⟨3, 0, 0x90, 0xBF⟩
  else if b = 0xF4 then .ok ⟨3, 4, 0x80, 0x8F⟩
  else if b ≤ 0xF3 then .ok ⟨3, b - 0xF0, 0x80, 0xBF⟩
  else .error replacement

/-- Reads on after a character's first bytes, if any are waiting. -/
def decodeFrom : Option Pending → List UInt8 → List Char
  | none, [] => []
  | some _, [] => [replacement]
  | none, b :: bs =>
    match leadByte b.toNat with
    | .error c => c :: decodeFrom none bs
    | .ok p => decodeFrom (some p) bs
  | some p, b :: bs =>
    if p.low ≤ b.toNat && b.toNat ≤ p.high then
      let code := p.code * 64 + (b.toNat - 0x80)
      if p.need ≤ 1 then Char.ofNat code :: decodeFrom none bs
      else decodeFrom (some ⟨p.need - 1, code, 0x80, 0xBF⟩) bs
    else
      match leadByte b.toNat with
      | .error c => replacement :: c :: decodeFrom none bs
      | .ok next => replacement :: decodeFrom (some next) bs

def decode (bs : List UInt8) : String := String.ofList (decodeFrom none bs)

end PhpFlow.Text
