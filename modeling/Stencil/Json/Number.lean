import Stencil.Value.Basic

namespace Stencil.Json

/-- Adds digits to a number as long as it stays within 64 bits: the number, and how many digits
were added. -/
def accumulate (n : Nat) : Text → Nat × Nat
  | [] => (n, 0)
  | c :: ds =>
    let next := 10 * n + (c.toNat - 48)
    if next < Text.indexBound then
      let (n, used) := accumulate next ds
      (n, used + 1)
    else (n, 0)

/-- Scales a number by a power of ten, in steps that have a binary64 power of ten. There is no
answer beyond the greatest number. -/
def scale (steps : Nat) (x : Binary64) (e : Int) : Option Binary64 :=
  if x.isZero then some x
  else if e.natAbs ≤ 308 then
    if 0 ≤ e then
      match x.mulBy (Binary64.powerOfTen e.toNat) with
      | .infinite _ => none
      | y => some y
    else some (x.divBy (Binary64.powerOfTen e.natAbs))
  else if 0 ≤ e then none
  else
    match steps with
    | 0 => none
    | steps + 1 => scale steps (x.divBy (Binary64.powerOfTen 308)) (e + 308)

/-- The float with a sign, a significand and a decimal exponent. -/
def float? (negative : Bool) (significand : Nat) (e : Int) : Option Value :=
  (scale (e.natAbs / 308 + 1) (Binary64.ofRatio negative significand 1) e).map Value.float

/-- A number as it is written: a sign or none, digits, a fraction, an exponent. -/
structure Numeral where
  negative : Bool
  whole : Text
  fraction : Option Text
  exponent : Option (Bool × Text)

/-- Reads the whole part of a number, which has no needless zeros in front. -/
def whole? (s : Text) : Option (Text × Text) :=
  match s.takeWhile Char.isDigit with
  | [] => none
  | '0' :: _ :: _ => none
  | ds => some (ds, s.dropWhile Char.isDigit)

/-- Reads the fraction of a number, if there is one. -/
def fraction? (s : Text) : Option (Option Text × Text) :=
  match s with
  | '.' :: s =>
    if (s.takeWhile Char.isDigit).isEmpty then none
    else some (some (s.takeWhile Char.isDigit), s.dropWhile Char.isDigit)
  | _ => some (none, s)

def exponentDigits? (negative : Bool) (s : Text) : Option (Option (Bool × Text) × Text) :=
  if (s.takeWhile Char.isDigit).isEmpty then none
  else some (some (negative, s.takeWhile Char.isDigit), s.dropWhile Char.isDigit)

/-- Reads the exponent of a number, if there is one. -/
def exponent? (s : Text) : Option (Option (Bool × Text) × Text) :=
  match s with
  | c :: rest =>
    if c == 'e' || c == 'E' then
      match rest with
      | '+' :: ds => exponentDigits? false ds
      | '-' :: ds => exponentDigits? true ds
      | ds => exponentDigits? false ds
    else some (none, s)
  | [] => some (none, s)

def numeral? (s : Text) : Option (Numeral × Text) := do
  let (negative, s) := match s with
    | '-' :: s => (true, s)
    | s => (false, s)
  let (whole, s) ← whole? s
  let (fraction, s) ← fraction? s
  let (exponent, s) ← exponent? s
  return (⟨negative, whole, fraction, exponent⟩, s)

/-- The value of a number without a fraction and an exponent. -/
def integer? (negative : Bool) (n : Nat) : Option Value :=
  if negative then
    if n = 0 ∨ Text.int64Bound < n then float? true n 0 else some (.int (-(n : Int)))
  else if n < Text.int64Bound then some (.int n)
  else float? false n 0

/-- The value of a number. There is none beyond the greatest float. A number without a fraction and
an exponent is an integer, if it is one of 64 bits. Of every other number the first digits, as many
as fit 64 bits, are rounded to binary64, and the result is multiplied or divided by the rounded
power of ten and rounded again. -/
def Numeral.value? (n : Numeral) : Option Value :=
  let (significand, used) := accumulate 0 n.whole
  let dropped := n.whole.length - used
  match n.fraction, n.exponent with
  | none, none =>
    if dropped = 0 then integer? n.negative significand
    else float? n.negative significand dropped
  | _, _ =>
    let (significand, usedFraction) := accumulate significand (n.fraction.getD [])
    let e : Int := dropped - usedFraction
    match n.exponent with
    | none => float? n.negative significand e
    | some (negative, ds) =>
      let size := Text.digitsValue ds
      if size < Nat.pow 2 31 then
        float? n.negative significand (if negative then e - size else e + size)
      else if significand ≠ 0 ∧ !negative then none
      else some (.float (Binary64.zero n.negative))

end Stencil.Json
