import Stencil.Number.Binary64

namespace Stencil.Binary64

/-- Reads an exponent after its letter: a sign or none, and at least one digit. -/
def exponent? (s : Text) : Option Int :=
  let (negative, ds) := match s with
    | '-' :: ds => (true, ds)
    | '+' :: ds => (false, ds)
    | ds => (false, ds)
  if ds.isEmpty || !ds.all Char.isDigit then none
  else some (if negative then -(Text.digitsValue ds : Int) else Text.digitsValue ds)

/-- Reads a decimal magnitude: digits with a point among them or none, and an exponent or none. -/
def magnitude? (s : Text) : Option (Nat × Int) := do
  let whole := s.takeWhile Char.isDigit
  let s := s.dropWhile Char.isDigit
  let (fraction, s) := match s with
    | '.' :: s => (s.takeWhile Char.isDigit, s.dropWhile Char.isDigit)
    | s => ([], s)
  if whole.isEmpty && fraction.isEmpty then none
  else
    let e ← match s with
      | [] => some 0
      | c :: s => if c == 'e' || c == 'E' then exponent? s else none
    return (Text.digitsValue (whole ++ fraction), e - fraction.length)

/-- Reads a number: a sign or none, and `inf`, `infinity` or `nan` in any case, or a magnitude. -/
def ofText? (s : Text) : Option Binary64 :=
  let (negative, s) := match s with
    | '-' :: s => (true, s)
    | '+' :: s => (false, s)
    | s => (false, s)
  if Text.eqIgnoringCase s "inf".toList || Text.eqIgnoringCase s "infinity".toList then
    some (.infinite negative)
  else if Text.eqIgnoringCase s "nan".toList then some .nan
  else (magnitude? s).map fun (n, e) => ofDecimal negative n e

def digitCount (n : Nat) : Nat := (Nat.toDigits 10 n).length

/-- The exponent of the least power of ten above `num / den`. -/
def decimalPoint (num den : Nat) : Int :=
  if den ≤ num then digitCount (num / den)
  else
    let n := (den + num - 1) / num - 1
    1 - (if n = 0 then 0 else digitCount n)

/-- A positive decimal number `digits · 10 ^ exponent`. -/
structure Decimal where
  digits : Nat
  exponent : Int
deriving Repr, DecidableEq

def Decimal.readsAs (d : Decimal) (m : Nat) (q : Int) : Bool :=
  ofDecimal false d.digits d.exponent == .finite false m q

def Decimal.normalize (d : Decimal) : Decimal :=
  go (digitCount d.digits) d
where
  go : Nat → Decimal → Decimal
    | 0, d => d
    | fuel + 1, d =>
      if d.digits % 10 = 0 ∧ d.digits ≠ 0 then go fuel ⟨d.digits / 10, d.exponent + 1⟩ else d

/-- Of the multiples of `10 ^ exponent` next to `num / den`, the one that reads back as
`m · 2 ^ q`. Of two, it is the nearer, and of two equally near ones the greater or the even one. -/
def onGrid? (tieUp : Bool) (m : Nat) (q : Int) (exponent : Int) : Option Decimal :=
  let (num, den) := ratio m q
  let num := num * Nat.pow 10 (-exponent).toNat
  let den := den * Nat.pow 10 exponent.toNat
  let below : Decimal := ⟨num / den, exponent⟩
  let above : Decimal := ⟨num / den + 1, exponent⟩
  let twice := 2 * (num % den)
  let preferAbove := den < twice || (twice == den && (tieUp || below.digits % 2 == 1))
  if below.digits ≠ 0 ∧ below.readsAs m q then
    if preferAbove && above.readsAs m q then some above else some below
  else if above.readsAs m q then some above
  else none

def exactDecimal (m : Nat) (q : Int) : Decimal :=
  if 0 ≤ q then ⟨m * Nat.pow 2 q.toNat, 0⟩ else ⟨m * Nat.pow 5 (-q).toNat, q⟩

/-- The decimal number with the fewest digits that reads back as `m · 2 ^ q`. -/
def shortest (tieUp : Bool) (m : Nat) (q : Int) : Decimal :=
  let (num, den) := ratio m q
  let point := decimalPoint num den
  let found := (List.range 17).findSome? fun (n : Nat) =>
    onGrid? tieUp m q (point - ((n : Int) + 1))
  (found.getD (exactDecimal m q)).normalize

/-- How a format writes numbers: between which exponents of the leading digit it writes all digits
in their places, whether a whole number has a point and a zero, and whether a tie between two
shortest forms goes up. -/
structure Format where
  least : Option Int
  greatest : Option Int
  point : Bool
  tieUp : Bool

def positional (point : Bool) (d : Decimal) : Text :=
  let ds := Nat.toDigits 10 d.digits
  let place : Int := ds.length + d.exponent
  if 0 ≤ d.exponent then
    ds ++ List.replicate d.exponent.toNat '0' ++ if point then ['.', '0'] else []
  else if 0 < place then ds.take place.toNat ++ ['.'] ++ ds.drop place.toNat
  else ['0', '.'] ++ List.replicate (-place).toNat '0' ++ ds

/-- The digits of a decimal number with a point after the first, and an exponent. -/
def scientific (d : Decimal) : Text :=
  let ds := Nat.toDigits 10 d.digits
  let e : Int := ds.length + d.exponent - 1
  let mantissa := match ds with
    | [] => []
    | [c] => [c]
    | c :: more => c :: '.' :: more
  mantissa ++ ['e'] ++ (if e < 0 then '-' :: Text.ofNat e.natAbs else '+' :: Text.ofNat e.natAbs)

def sign (negative : Bool) : Text := if negative then ['-'] else []

def write (f : Format) (negative : Bool) (m : Nat) (q : Int) : Text :=
  sign negative ++
    if m = 0 then (if f.point then ['0', '.', '0'] else ['0'])
    else
      let d := shortest f.tieUp m q
      let e : Int := digitCount d.digits + d.exponent - 1
      if f.least.all (· ≤ e) && f.greatest.all (e ≤ ·) then positional f.point d else scientific d

/-- Pages have no exponents, and whole numbers without a point. -/
def pageFormat : Format := ⟨none, none, false, true⟩

/-- JSON texts have exponents for very small and very large numbers, and a point in whole
numbers. -/
def jsonFormat : Format := ⟨some (-5), some 15, true, false⟩

def text : Binary64 → Text
  | .nan => "NaN".toList
  | .infinite negative => sign negative ++ "inf".toList
  | .finite negative m q => write pageFormat negative m q

/-- A number as it stands in a JSON text, where only finite numbers can. -/
def json? : Binary64 → Option Text
  | .finite negative m q => some (write jsonFormat negative m q)
  | _ => none

/-- A finite whole number in full, with one zero after the point; nothing for other numbers. -/
def wholeText? : Binary64 → Option Text
  | .finite negative m q =>
    let (n, exact) := wholePart m q
    if exact then
      some (sign negative ++ Text.ofNat n ++ ['.', '0'])
    else none
  | _ => none

end Stencil.Binary64
