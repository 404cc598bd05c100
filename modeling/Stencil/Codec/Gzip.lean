import Stencil.Codec.Inflate



namespace Stencil.Crc32

def shift (r : UInt32) : UInt32 := if r &&& 1 = 1 then (r >>> 1) ^^^ 0xEDB88320 else r >>> 1

/-- Takes one byte into the register of the checksum CRC-32. -/
def update (r : UInt32) (b : UInt8) : UInt32 :=
  shift (shift (shift (shift (shift (shift (shift (shift (r ^^^ b.toUInt32))))))))

/-- The checksum of bytes. -/
def checksum (bytes : Bytes) : UInt32 := bytes.foldl update 0xFFFFFFFF ^^^ 0xFFFFFFFF

end Stencil.Crc32

namespace Stencil.Gzip

/-- A number as so many bytes, lowest first. -/
def littleEndian : Nat → Nat → Bytes
  | 0, _ => []
  | n + 1, m => UInt8.ofNat (m % 256) :: littleEndian n (m / 256)

/-- The number that bytes give, lowest first. -/
def ofLittleEndian (bytes : Bytes) : Nat := bytes.foldr (fun b n => b.toNat + 256 * n) 0

/-- The greatest number of bytes in a stored block. -/
def maxBlock : Nat := 65535

/-- Writes bytes as stored blocks. -/
def store (bytes : Bytes) : Bytes :=
  let size := min bytes.length maxBlock
  let block (last : UInt8) : Bytes :=
    last :: littleEndian 2 size ++ littleEndian 2 (maxBlock - size) ++ bytes.take maxBlock
  if _h : bytes.length ≤ maxBlock then block 1 else block 0 ++ store (bytes.drop maxBlock)
termination_by bytes.length
decreasing_by
  simp only [List.length_drop, maxBlock] at *
  omega

def header : Bytes := [0x1F, 0x8B, 8, 0, 0, 0, 0, 0, 0, 255]

/-- Writes bytes. -/
def compress (bytes : Bytes) : Bytes :=
  header ++ store bytes ++ littleEndian 4 (Crc32.checksum bytes).toNat ++
    littleEndian 4 (bytes.length % Nat.pow 2 32)

/-- Leaves out bytes up to a zero. -/
def afterZero? : Bytes → Option Bytes
  | [] => none
  | b :: rest => if b = 0 then some rest else afterZero? rest

/-- Leaves out so many bytes. -/
def skip? (n : Nat) (bytes : Bytes) : Option Bytes :=
  if n ≤ bytes.length then some (bytes.drop n) else none

def extra? (bytes : Bytes) : Option Bytes :=
  match bytes with
  | a :: b :: rest => skip? (a.toNat + 256 * b.toNat) rest
  | _ => none

/-- Leaves out the header, whose optional fields its flags tell of. A checksum of the header must be
right. -/
def afterHeader? (bytes : Bytes) : Option Bytes :=
  match bytes with
  | 0x1F :: 0x8B :: 8 :: flags :: _ :: _ :: _ :: _ :: _ :: _ :: rest => do
    let has (bit : Nat) : Bool := flags.toNat.testBit bit
    if 32 ≤ flags.toNat then none
    else
      let rest ← if has 2 then extra? rest else some rest
      let rest ← if has 3 then afterZero? rest else some rest
      let rest ← if has 4 then afterZero? rest else some rest
      if has 1 then
        match rest with
        | a :: b :: after =>
          let sum := Crc32.checksum (bytes.take (bytes.length - rest.length))
          if sum.toNat % Nat.pow 2 16 = a.toNat + 256 * b.toNat then some after else none
        | _ => none
      else some rest
  | _ => none

/-- Reads bytes. What follows them does not count. -/
def decompress? (bytes : Bytes) : Option Bytes := do
  let (out, rest) ← Inflate.read? (← afterHeader? bytes)
  let trailer := rest.take 8
  if trailer.length = 8 ∧ ofLittleEndian (trailer.take 4) = (Crc32.checksum out).toNat ∧
      ofLittleEndian (trailer.drop 4) = out.length % Nat.pow 2 32 then
    some out
  else none

end Stencil.Gzip
