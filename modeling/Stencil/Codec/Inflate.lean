import Stencil.Codec.Utf8

namespace Stencil.Inflate

/-- The bits of bytes, in the order in which they are taken. -/
def toBits (bytes : Bytes) : List Bool :=
  bytes.flatMap fun b => (List.range 8).map fun i => b.toNat.testBit i

/-- The number that so many bits give, lowest first, and the rest. -/
def number? : Nat → List Bool → Option (Nat × List Bool)
  | 0, bits => some (0, bits)
  | _ + 1, [] => none
  | n + 1, b :: bits => (number? n bits).map fun (m, rest) => (2 * m + b.toNat, rest)

/-- A prefix code, by the symbols that have each length, in their order. -/
structure Code where
  symbols : List (List Nat)
deriving Repr

def maxLength : Nat := 15

/-- The code in which each symbol has a word of the given length, or none. -/
def Code.ofLengths (lengths : List Nat) : Code :=
  ⟨(List.range maxLength).map fun l => (List.range lengths.length).filter fun s =>
    lengths[s]? = some (l + 1)⟩

/-- The part of the code space that is taken by words up to a length, in units of the longest. -/
def Code.space (c : Code) : Nat :=
  ((List.range maxLength).zip c.symbols).foldl
    (fun n e => n + e.2.length * Nat.pow 2 (maxLength - 1 - e.1)) 0

/-- Are all words usable: is the code complete, or has it no more than one word? -/
def Code.isUsable (c : Code) : Bool :=
  c.space == Nat.pow 2 maxLength || c.symbols.flatten.length ≤ 1

/-- Reads a symbol, given the word so far, the first word of its length and the symbols of longer
words. -/
def symbolFrom? (word first : Nat) : List (List Nat) → List Bool → Option (Nat × List Bool)
  | [], _ => none
  | _, [] => none
  | level :: longer, b :: bits =>
    let word := 2 * word + b.toNat
    let first := 2 * first
    if word < first + level.length then (level[word - first]?).map fun s => (s, bits)
    else symbolFrom? word (first + level.length) longer bits

def Code.symbol? (c : Code) (bits : List Bool) : Option (Nat × List Bool) :=
  symbolFrom? 0 0 c.symbols bits

/-- The least length of a copy and the number of further bits, for each symbol from 257 on. -/
def lengthBase : List (Nat × Nat) := [
  (3, 0), (4, 0), (5, 0), (6, 0), (7, 0), (8, 0), (9, 0), (10, 0), (11, 1), (13, 1), (15, 1),
  (17, 1), (19, 2), (23, 2), (27, 2), (31, 2), (35, 3), (43, 3), (51, 3), (59, 3), (67, 4),
  (83, 4), (99, 4), (115, 4), (131, 5), (163, 5), (195, 5), (227, 5), (258, 0)]

/-- The least distance of a copy and the number of further bits, for each symbol. -/
def distanceBase : List (Nat × Nat) := [
  (1, 0), (2, 0), (3, 0), (4, 0), (5, 1), (7, 1), (9, 2), (13, 2), (17, 3), (25, 3), (33, 4),
  (49, 4), (65, 5), (97, 5), (129, 6), (193, 6), (257, 7), (385, 7), (513, 8), (769, 8),
  (1025, 9), (1537, 9), (2049, 10), (3073, 10), (4097, 11), (6145, 11), (8193, 12), (12289, 12),
  (16385, 13), (24577, 13)]

/-- Reads a number that a base and further bits give. -/
def based? (table : List (Nat × Nat)) (symbol : Nat) (bits : List Bool) :
    Option (Nat × List Bool) := do
  let (base, extra) ← table[symbol]?
  let (n, bits) ← number? extra bits
  return (base + n, bits)

/-- Copies so many bytes from a distance back. The output is given backwards. -/
def copy? (distance : Nat) : Nat → Bytes → Option Bytes
  | 0, out => some out
  | n + 1, out => (out[distance - 1]?).bind fun b => copy? distance n (b :: out)

/-- Reads literals and copies up to the end of a block. The output is given backwards, and every
symbol takes at least one bit. -/
def symbols? (literals distances : Code) :
    Nat → Bytes → List Bool → Option (Bytes × List Bool)
  | 0, _, _ => none
  | fuel + 1, out, bits => do
    let (s, bits) ← literals.symbol? bits
    if s < 256 then symbols? literals distances fuel (UInt8.ofNat s :: out) bits
    else if s = 256 then return (out, bits)
    else
      let (length, bits) ← based? lengthBase (s - 257) bits
      let (d, bits) ← distances.symbol? bits
      let (distance, bits) ← based? distanceBase d bits
      let out ← copy? distance length out
      symbols? literals distances fuel out bits

/-- The bytes that so many bits give, eight each. -/
def bytes? : Nat → List Bool → Option (Bytes × List Bool)
  | 0, bits => some ([], bits)
  | n + 1, bits => do
    let (b, bits) ← number? 8 bits
    let (bs, bits) ← bytes? n bits
    return (UInt8.ofNat b :: bs, bits)

/-- Leaves out the bits up to the next byte. -/
def align (bits : List Bool) : List Bool := bits.drop (bits.length % 8)

def stored? (out : Bytes) (bits : List Bool) : Option (Bytes × List Bool) := do
  let (length, bits) ← number? 16 (align bits)
  let (check, bits) ← number? 16 bits
  if length + check ≠ 0xFFFF then none
  else
    let (bs, bits) ← bytes? length bits
    return (bs.reverse ++ out, bits)

/-- The code of literals in blocks that do not carry one. -/
def fixedLiterals : Code :=
  .ofLengths (List.replicate 144 8 ++ List.replicate 112 9 ++ List.replicate 24 7 ++
    List.replicate 8 8)

/-- The code of distances in blocks that do not carry one. -/
def fixedDistances : Code := .ofLengths (List.replicate 32 5)

/-- The order in which the lengths of the words for lengths come. -/
def lengthOrder : List Nat := [16, 17, 18, 0, 8, 7, 9, 6, 10, 5, 11, 4, 12, 3, 13, 2, 14, 1, 15]

/-- Reads so many numbers of three bits. -/
def triples? : Nat → List Bool → Option (List Nat × List Bool)
  | 0, bits => some ([], bits)
  | n + 1, bits => do
    let (x, bits) ← number? 3 bits
    let (xs, bits) ← triples? n bits
    return (x :: xs, bits)

/-- Reads lengths of words until there are as many as asked for. The lengths so far are given
backwards. -/
def lengths? (code : Code) (count : Nat) : Nat → List Nat → List Bool →
    Option (List Nat × List Bool)
  | 0, _, _ => none
  | fuel + 1, found, bits =>
    if count ≤ found.length then
      if count = found.length then some (found.reverse, bits) else none
    else do
      let (s, bits) ← code.symbol? bits
      if s < 16 then lengths? code count fuel (s :: found) bits
      else if s = 16 then
        let previous ← found.head?
        let (n, bits) ← number? 2 bits
        lengths? code count fuel (List.replicate (n + 3) previous ++ found) bits
      else if s = 17 then
        let (n, bits) ← number? 3 bits
        lengths? code count fuel (List.replicate (n + 3) 0 ++ found) bits
      else
        let (n, bits) ← number? 7 bits
        lengths? code count fuel (List.replicate (n + 11) 0 ++ found) bits

def codes? (bits : List Bool) : Option ((Code × Code) × List Bool) := do
  let (hlit, bits) ← number? 5 bits
  let (hdist, bits) ← number? 5 bits
  let (hclen, bits) ← number? 4 bits
  if 29 < hlit ∨ 29 < hdist then none
  else
    let (triples, bits) ← triples? (hclen + 4) bits
    let given := lengthOrder.zip triples
    let lengthCode := Code.ofLengths ((List.range 19).map fun s =>
      ((given.find? fun e => e.1 = s).map Prod.snd).getD 0)
    if !lengthCode.isUsable then none
    else
      let count := hlit + 257 + hdist + 1
      let (lengths, bits) ← lengths? lengthCode count (count + 1) [] bits
      let literals := Code.ofLengths (lengths.take (hlit + 257))
      let distances := Code.ofLengths (lengths.drop (hlit + 257))
      if literals.isUsable && distances.isUsable then return ((literals, distances), bits)
      else none

/-- Reads one block after the bit that tells whether it is the last. -/
def block? (out : Bytes) (bits : List Bool) : Option (Bytes × List Bool) := do
  let (kind, bits) ← number? 2 bits
  match kind with
  | 0 => stored? out bits
  | 1 => symbols? fixedLiterals fixedDistances (bits.length + 1) out bits
  | 2 =>
    let ((literals, distances), bits) ← codes? bits
    symbols? literals distances (bits.length + 1) out bits
  | _ => none

/-- Reads blocks up to the last one. The output is given backwards, and every block takes at least
one bit. -/
def blocks? : Nat → Bytes → List Bool → Option (Bytes × List Bool)
  | 0, _, _ => none
  | fuel + 1, out, bits => do
    let (last, bits) ← number? 1 bits
    let (out, bits) ← block? out bits
    if last = 1 then return (out, bits) else blocks? fuel out bits

/-- Reads deflated bytes, and gives the bytes that follow them. -/
def read? (bytes : Bytes) : Option (Bytes × Bytes) := do
  let bits := toBits bytes
  let (out, rest) ← blocks? (bits.length + 1) [] bits
  return (out.reverse, bytes.drop (bytes.length - rest.length / 8))

end Stencil.Inflate
