import Stencil.Text.Basic

namespace Stencil

/-- A sequence of bytes. -/
abbrev Bytes := List UInt8

namespace Utf8

/-- A byte of a longer character after its first one. -/
def continuation (n : Nat) : UInt8 := UInt8.ofNat (0x80 + n % 64)

/-- The bytes of a character. -/
def encodeChar (c : Char) : Bytes :=
  let n := c.toNat
  if n < 0x80 then [UInt8.ofNat n]
  else if n < 0x800 then [UInt8.ofNat (0xC0 + n / 64), continuation n]
  else if n < 0x10000 then
    [UInt8.ofNat (0xE0 + n / 4096), continuation (n / 64), continuation n]
  else
    [UInt8.ofNat (0xF0 + n / 262144), continuation (n / 4096), continuation (n / 64),
      continuation n]

/-- The bytes of a text. -/
def encode (s : Text) : Bytes := s.flatMap encodeChar

/-- The bits that a byte after the first adds to a character. -/
def bits? (b : UInt8) : Option Nat :=
  if 0x80 ≤ b.toNat ∧ b.toNat < 0xC0 then some (b.toNat - 0x80) else none

/-- The character with a number, if the number is at least so great and that of a character. -/
def char? (least n : Nat) : Option Char :=
  if least ≤ n ∧ (n < 0xD800 ∨ (0xDFFF < n ∧ n < 0x110000)) then some (Char.ofNat n) else none

/-- Reads a text. There is none if the bytes are not UTF-8. -/
def decode? : Bytes → Option Text
  | [] => some []
  | a :: rest =>
    if a.toNat < 0x80 then (decode? rest).map (Char.ofNat a.toNat :: ·)
    else if a.toNat < 0xC0 then none
    else if a.toNat < 0xE0 then
      match rest with
      | b :: rest => do
        let c ← char? 0x80 ((a.toNat - 0xC0) * 64 + (← bits? b))
        return c :: (← decode? rest)
      | _ => none
    else if a.toNat < 0xF0 then
      match rest with
      | b :: c :: rest => do
        let c ← char? 0x800 ((a.toNat - 0xE0) * 4096 + (← bits? b) * 64 + (← bits? c))
        return c :: (← decode? rest)
      | _ => none
    else
      match rest with
      | b :: c :: d :: rest => do
        let c ← char? 0x10000 ((a.toNat - 0xF0) * 262144 + (← bits? b) * 4096 +
          (← bits? c) * 64 + (← bits? d))
        return c :: (← decode? rest)
      | _ => none

end Utf8

end Stencil
