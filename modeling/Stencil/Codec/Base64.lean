import Stencil.Codec.Utf8

namespace Stencil.Base64

def digit (n : Nat) : Char :=
  if n < 26 then Char.ofNat (65 + n)
  else if n < 52 then Char.ofNat (71 + n)
  else if n < 62 then Char.ofNat (n - 4)
  else if n = 62 then '+'
  else '/'

def value? (c : Char) : Option Nat :=
  if 65 ≤ c.toNat ∧ c.toNat ≤ 90 then some (c.toNat - 65)
  else if 97 ≤ c.toNat ∧ c.toNat ≤ 122 then some (c.toNat - 71)
  else if 48 ≤ c.toNat ∧ c.toNat ≤ 57 then some (c.toNat + 4)
  else if c = '+' then some 62
  else if c = '/' then some 63
  else none

/-- Writes bytes. -/
def encode : Bytes → Text
  | [] => []
  | [a] => [digit (a.toNat / 4), digit (a.toNat % 4 * 16), '=', '=']
  | [a, b] =>
    [digit (a.toNat / 4), digit (a.toNat % 4 * 16 + b.toNat / 16), digit (b.toNat % 16 * 4), '=']
  | a :: b :: c :: rest =>
    digit (a.toNat / 4) :: digit (a.toNat % 4 * 16 + b.toNat / 16) ::
      digit (b.toNat % 16 * 4 + c.toNat / 64) :: digit (c.toNat % 64) :: encode rest

/-- Reads bytes. -/
def decode? : Text → Option Bytes
  | [] => some []
  | [a, b, '=', '='] => do
    let x ← value? a
    let y ← value? b
    if y % 16 = 0 then return [UInt8.ofNat (x * 4 + y / 16)] else none
  | [a, b, c, '='] => do
    let x ← value? a
    let y ← value? b
    let z ← value? c
    if z % 4 = 0 then
      return [UInt8.ofNat (x * 4 + y / 16), UInt8.ofNat (y % 16 * 16 + z / 4)]
    else none
  | a :: b :: c :: d :: rest => do
    let x ← value? a
    let y ← value? b
    let z ← value? c
    let w ← value? d
    return UInt8.ofNat (x * 4 + y / 16) :: UInt8.ofNat (y % 16 * 16 + z / 4) ::
      UInt8.ofNat (z % 4 * 64 + w) :: (← decode? rest)
  | _ => none

variable {p : Char → Prop}

theorem forall_digit (h : ∀ n < 64, p (digit n)) (n : Nat) : p (digit n) := by
  by_cases hn : n < 64
  · exact h n hn
  · have hlast : digit n = digit 63 := by
      unfold digit
      rw [if_neg (by omega), if_neg (by omega), if_neg (by omega), if_neg (by omega)]
      rfl
    rw [hlast]
    exact h 63 (by decide)

theorem forall_mem_encode (h : ∀ n < 64, p (digit n)) (hpad : p '=') (bytes : Bytes) :
    ∀ c ∈ encode bytes, p c := by
  have hdigit := forall_digit h
  fun_induction encode bytes with
  | case1 => exact List.forall_mem_nil _
  | case2 a => simp [hdigit, hpad]
  | case3 a b => simp [hdigit, hpad]
  | case4 a b c rest ih => simpa [hdigit] using ih

theorem angle_not_mem_encode (bytes : Bytes) : '<' ∉ encode bytes := fun h =>
  forall_mem_encode (p := (· ≠ '<')) (by decide) (by decide) bytes _ h rfl

theorem isWhiteSpace_of_mem_encode (bytes : Bytes) :
    ∀ c ∈ encode bytes, isWhiteSpace c = false :=
  forall_mem_encode (p := (isWhiteSpace · = false)) (by decide) rfl bytes

end Stencil.Base64
