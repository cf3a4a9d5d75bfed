/-!
# Text from bytes that need not be UTF-8

Well-formed sequences become their characters. Each longest start of a sequence that is not
completed, and each byte that starts none, becomes one replacement character.
-/

namespace Changeover.Text

/-- A sequence that has begun: how many bytes are owed after the next one, the range of the next
one, and the value so far. -/
structure Begun where
  owed : Nat
  low : UInt8
  high : UInt8
  value : Nat
  deriving DecidableEq

def replacement : Char := Char.ofNat 0xfffd

/-- What the first byte of a character means. The ranges leave out overlong forms, surrogates and
values above the last character. -/
def begin? (b : UInt8) : Option Begun :=
  let v := b.toNat
  if 0xc2 ≤ v ∧ v ≤ 0xdf then some ⟨0, 0x80, 0xbf, v - 0xc0⟩
  else if v = 0xe0 then some ⟨1, 0xa0, 0xbf, 0⟩
  else if v = 0xed then some ⟨1, 0x80, 0x9f, 0xd⟩
  else if 0xe1 ≤ v ∧ v ≤ 0xef then some ⟨1, 0x80, 0xbf, v - 0xe0⟩
  else if v = 0xf0 then some ⟨2, 0x90, 0xbf, 0⟩
  else if 0xf1 ≤ v ∧ v ≤ 0xf3 then some ⟨2, 0x80, 0xbf, v - 0xf0⟩
  else if v = 0xf4 then some ⟨2, 0x80, 0x8f, 4⟩
  else none

def firstByte (b : UInt8) : List Char × Option Begun :=
  if b < 0x80 then ([Char.ofNat b.toNat], none)
  else match begin? b with
    | some s => ([], some s)
    | none => ([replacement], none)

def nextByte (state : Option Begun) (b : UInt8) : List Char × Option Begun :=
  match state with
  | none => firstByte b
  | some s =>
    if s.low ≤ b ∧ b ≤ s.high then
      let value := s.value * 64 + (b.toNat - 0x80)
      if s.owed = 0 then ([Char.ofNat value], none)
      else ([], some ⟨s.owed - 1, 0x80, 0xbf, value⟩)
    else
      let (cs, s') := firstByte b
      (replacement :: cs, s')

def decodeFrom (state : Option Begun) : List UInt8 → List Char
  | [] => if state.isSome then [replacement] else []
  | b :: bs =>
    let (cs, state') := nextByte state b
    cs ++ decodeFrom state' bs

def decodeLossy (bytes : ByteArray) : String := String.ofList (decodeFrom none bytes.toList)

end Changeover.Text
