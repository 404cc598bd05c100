import Stencil.Number.Decimal
import Stencil.Toml.Basic

namespace Stencil.Toml

/-- Is every underscore of a text of digits between two digits? The text without them, if it has
digits at all. -/
def digits? (isDigit : Char → Bool) (s : Text) : Option Text :=
  if (Text.splitOn ['_'] s).all fun part => !part.isEmpty && part.all isDigit then
    some (s.filter (· != '_'))
  else none

/-- Reads a decimal number without sign, and without zeros in front. -/
def decimal? (s : Text) : Option Text :=
  (digits? Char.isDigit s).filter fun ds => ds.length = 1 || ds.head? ≠ some '0'

def cutSign (s : Text) : Bool × Text :=
  match s with
  | '-' :: s => (true, s)
  | '+' :: s => (false, s)
  | s => (false, s)

def digitValue (c : Char) : Nat :=
  if c.isDigit then c.toNat - '0'.toNat else c.toLower.toNat - 'a'.toNat + 10

def isDigitOf (base : Nat) (c : Char) : Bool :=
  (c.isDigit || (c.isAlpha && c.toLower.toNat ≤ 'f'.toNat)) && digitValue c < base

/-- Reads a whole number to a base, without sign. -/
def based? (base : Nat) (s : Text) : Option Nat :=
  (digits? (isDigitOf base) s).map fun ds => ds.foldl (fun n c => base * n + digitValue c) 0

/-- Reads an integer of 64 bits: decimal, or hexadecimal, octal or binary without sign. -/
def integer? (s : Text) : Option Int :=
  let fits (i : Int) : Option Int :=
    if -Text.int64Bound ≤ i ∧ i < Text.int64Bound then some i else none
  match s with
  | '0' :: 'x' :: ds => (based? 16 ds).bind fun n => fits n
  | '0' :: 'o' :: ds => (based? 8 ds).bind fun n => fits n
  | '0' :: 'b' :: ds => (based? 2 ds).bind fun n => fits n
  | _ =>
    let (negative, ds) := cutSign s
    (decimal? ds).bind fun ds =>
      let n : Int := Text.digitsValue ds
      fits (if negative then -n else n)

/-- Is this a fraction after a point, or nothing? -/
def isFraction : Text → Bool
  | [] => true
  | '.' :: ds => (digits? Char.isDigit ds).isSome
  | _ => false

/-- Is this an exponent after its letter? -/
def isExponent (s : Text) : Bool := (digits? Char.isDigit (cutSign s).2).isSome

/-- Is this a float written with a fraction, an exponent or both? One too great for the format is
none. -/
def isPlainFloat (s : Text) : Bool :=
  let isLetter (c : Char) : Bool := c == 'e' || c == 'E'
  let (negative, s) := cutSign s
  let mantissa := s.takeWhile fun c => !isLetter c
  let exponent := s.drop mantissa.length
  let whole := mantissa.takeWhile (· != '.')
  let fraction := mantissa.drop whole.length
  let formed := (decimal? whole).isSome && isFraction fraction &&
    (exponent.isEmpty || isExponent (exponent.drop 1)) && !(fraction.isEmpty && exponent.isEmpty)
  let tooGreat := match Binary64.ofText? (s.filter (· != '_')) with
    | some (.infinite _) => !negative
    | _ => false
  formed && !tooGreat

def isFloat (s : Text) : Bool :=
  let magnitude := (cutSign s).2
  magnitude = "inf".toList || magnitude = "nan".toList || isPlainFloat s

def field? (width lo hi : Nat) (s : Text) : Option Nat :=
  if s.length = width ∧ s.all Char.isDigit then
    let n := Text.digitsValue s
    if lo ≤ n ∧ n ≤ hi then some n else none
  else none

def daysOf (year month : Nat) : Nat :=
  let isLeap := year % 4 = 0 ∧ (year % 100 ≠ 0 ∨ year % 400 = 0)
  if month = 2 then (if isLeap then 29 else 28)
  else if month ∈ [4, 6, 9, 11] then 30
  else 31

def isDay (s : Text) : Bool :=
  match Text.splitOn ['-'] s with
  | [y, m, d] =>
    match field? 4 0 9999 y, field? 2 1 12 m, field? 2 1 31 d with
    | some y, some m, some d => d ≤ daysOf y m
    | _, _, _ => false
  | _ => false

def isTime (s : Text) : Bool :=
  match Text.splitOn [':'] s with
  | [h, m, rest] =>
    let seconds := rest.takeWhile (· != '.')
    let fraction := rest.drop seconds.length
    (field? 2 0 23 h).isSome && (field? 2 0 59 m).isSome && (field? 2 0 60 seconds).isSome &&
      (fraction.isEmpty || (!(fraction.drop 1).isEmpty && (fraction.drop 1).all Char.isDigit))
  | _ => false

def isOffset (s : Text) : Bool :=
  match s with
  | ['Z'] | ['z'] => true
  | c :: rest =>
    match Text.splitOn [':'] rest with
    | [h, m] => (c == '+' || c == '-') && (field? 2 0 23 h).isSome && (field? 2 0 59 m).isSome
    | _ => false
  | [] => false

/-- Is this a time of day with the distance of a time zone, or without? -/
def isZonedTime (s : Text) : Bool :=
  let time := s.takeWhile fun c => c.isDigit || c == ':' || c == '.'
  let offset := s.drop time.length
  isTime time && (offset.isEmpty || isOffset offset)

def isDate (s : Text) : Bool :=
  let day := s.take 10
  match s.drop 10 with
  | [] => isDay day || isTime s
  | c :: time => (isDay day && (c == 'T' || c == 't' || c == ' ') && isZonedTime time) || isTime s

def word? (s : Text) : Option Toml :=
  if s = "true".toList then some (boolean true)
  else if s = "false".toList then some (boolean false)
  else
    match integer? s with
    | some i => some (integer i)
    | none => if isFloat s then some float else if isDate s then some date else none

end Stencil.Toml
