import Stencil.Text.Basic

namespace Stencil

/-- A binary64 number. It is exact, and arithmetic on it is on natural numbers throughout; the one
place that rounds is `ofRatio`. -/
inductive Binary64 where
  | nan
  | infinite (negative : Bool)
  | finite (negative : Bool) (m : Nat) (q : Int)
deriving Repr, DecidableEq, Inhabited

namespace Binary64

/-- The least exponent of a binary64 number. -/
def minExponent : Int := -1074

def maxExponent : Int := 971

def zero (negative : Bool) : Binary64 := .finite negative 0 minExponent

/-- The quotient of two numbers, rounded to the nearest one, and of two equally near ones to the
even one. -/
def roundQuotient (num den : Nat) : Nat :=
  let twice := 2 * (num % den)
  if twice < den ∨ (twice = den ∧ num / den % 2 = 0) then num / den else num / den + 1

/-- The exponent of the power of two that is not above the quotient of two numbers by less than a
factor of two. -/
def log2Quotient (num den : Nat) : Int :=
  let e : Int := (num.log2 : Int) - den.log2
  if num * Nat.pow 2 (-e).toNat < den * Nat.pow 2 e.toNat then e - 1 else e

/-- The binary64 number next to the quotient of two natural numbers, with a sign. Of two equally
near ones it is the one with an even significand. -/
def ofRatio (negative : Bool) (num den : Nat) : Binary64 :=
  if num = 0 then zero negative
  else
    let q := max (log2Quotient num den - 52) minExponent
    let m := roundQuotient (num * Nat.pow 2 (-q).toNat) (den * Nat.pow 2 q.toNat)
    let (m, q) := if m = Nat.pow 2 53 then (Nat.pow 2 52, q + 1) else (m, q)
    if maxExponent < q then .infinite negative else .finite negative m q

/-- The binary64 number next to `n · 10 ^ e`. Exponents that can only give zero or infinity are not
computed with. -/
def ofDecimal (negative : Bool) (n : Nat) (e : Int) : Binary64 :=
  if n = 0 then zero negative
  else
    let size : Int := (Nat.toDigits 10 n).length + e
    if 310 < size then .infinite negative
    else if size < -330 then zero negative
    else ofRatio negative (n * Nat.pow 10 e.toNat) (Nat.pow 10 (-e).toNat)

def ofInt (i : Int) : Binary64 := ofRatio (i < 0) i.natAbs 1

def scaled (negative : Bool) (m : Nat) (q least : Int) : Int :=
  let n : Int := Int.ofNat (m * Nat.pow 2 (q - least).toNat)
  if negative then -n else n

/-- The order of two numbers, if neither is NaN. The two zeros are equal. -/
def order? : Binary64 → Binary64 → Option Ordering
  | nan, _ | _, nan => none
  | infinite a, infinite b => some (compare b.toNat a.toNat)
  | infinite a, finite .. => some (if a then .lt else .gt)
  | finite .., infinite b => some (if b then .gt else .lt)
  | finite a m q, finite b n r =>
    let least := min q r
    some (compare (scaled a m q least) (scaled b n r least))

def eq (a b : Binary64) : Bool := a.order? b == some .eq

def isZero : Binary64 → Bool
  | finite _ 0 _ => true
  | _ => false

/-- The natural number below the magnitude of a finite number, and whether the number is it. -/
def wholePart (m : Nat) (q : Int) : Nat × Bool :=
  if 0 ≤ q then (m * Nat.pow 2 q.toNat, true)
  else (m / Nat.pow 2 (-q).toNat, m % Nat.pow 2 (-q).toNat == 0)

/-- The integer next to a number toward zero, held within 64 bits. NaN gives zero. -/
def toInt64 : Binary64 → Int
  | nan => 0
  | infinite negative => if negative then -Text.int64Bound else Text.int64Bound - 1
  | finite negative m q =>
    let n : Int := (wholePart m q).1
    if negative then max (-n) (-Text.int64Bound) else min n (Text.int64Bound - 1)

def ratio (m : Nat) (q : Int) : Nat × Nat := (m * Nat.pow 2 q.toNat, Nat.pow 2 (-q).toNat)

/-- The product of two magnitudes, rounded. -/
def mulMagnitude (negative : Bool) (a b : Nat × Int) : Binary64 :=
  let (n, d) := ratio (a.1 * b.1) (a.2 + b.2)
  ofRatio negative n d

/-- The quotient of two magnitudes, rounded. -/
def divMagnitude (negative : Bool) (a b : Nat × Int) : Binary64 :=
  let (n, d) := ratio a.1 (a.2 - b.2)
  ofRatio negative n (d * b.1)

def mulBy (x : Binary64) (b : Nat × Int) : Binary64 :=
  match x with
  | finite negative m q => mulMagnitude negative (m, q) b
  | x => x

def divBy (x : Binary64) (b : Nat × Int) : Binary64 :=
  match x with
  | finite negative m q => divMagnitude negative (m, q) b
  | x => x

def powerOfTen (e : Nat) : Nat × Int :=
  match ofDecimal false 1 e with
  | finite _ m q => (m, q)
  | _ => (0, 0)

end Binary64

end Stencil
