import Stencil.Dictionary
import Stencil.Number.Decimal

namespace Stencil

/-- A value of a template. Integers are those of 64 bits. -/
inductive Value where
  | null
  | bool (b : Bool)
  | int (i : Int)
  | float (x : Binary64)
  | str (s : Text)
  | array (items : List Value)
  | map (entries : List (Text × Value))
deriving Repr, Inhabited

abbrev Scope := Dictionary Value

namespace Value

mutual

/-- Are two values of one kind and equal? A NaN equals nothing, the two zeros are equal. -/
def same : Value → Value → Bool
  | .null, .null => true
  | .bool a, .bool b => a == b
  | .int a, .int b => a == b
  | .float a, .float b => a.eq b
  | .str a, .str b => a == b
  | .array a, .array b => sameItems a b
  | .map a, .map b => sameEntries a b
  | _, _ => false

def sameItems : List Value → List Value → Bool
  | [], [] => true
  | a :: as, b :: bs => same a b && sameItems as bs
  | _, _ => false

def sameEntries : List (Text × Value) → List (Text × Value) → Bool
  | [], [] => true
  | (k, a) :: as, (l, b) :: bs => k == l && same a b && sameEntries as bs
  | _, _ => false

end

def isTruthy : Value → Bool
  | null => false
  | bool b => b
  | int i => i != 0
  | float x => !x.isZero
  | str s => !s.isEmpty
  | array items => !items.isEmpty
  | map entries => !entries.isEmpty

def isNull : Value → Bool
  | null => true
  | _ => false

def isFalse : Value → Bool
  | bool false => true
  | _ => false

/-- Has a value a text of its own, not that of a JSON text? -/
def isScalar : Value → Bool
  | array _ | map _ => false
  | _ => true

/-- A value as a number. A string counts if it reads as one, blanks around it aside. -/
def number? : Value → Option Binary64
  | int i => some (Binary64.ofInt i)
  | float x => some x
  | str s => Binary64.ofText? (Text.trim s)
  | _ => none

def int? : Value → Option Int
  | int i => some i
  | float x => some x.toInt64
  | str s =>
    let s := Text.trim s
    (Text.toInt64? s).or ((Binary64.ofText? s).map Binary64.toInt64)
  | _ => none

def str? : Value → Option Text
  | str s => some s
  | _ => none

def isNumeric : Value → Bool
  | int _ | float _ => true
  | _ => false

/-- The number of items, entries or bytes. -/
def size : Value → Nat
  | array items => items.length
  | map entries => entries.length
  | str s => Text.byteLength s
  | _ => 0

def boolText (b : Bool) : Text := if b then "true".toList else "false".toList

/-- Equality of values that are not both numbers. A boolean equals its name. -/
def plainlyEqual : Value → Value → Bool
  | str a, str b => a == b
  | bool a, str b => b == boolText a
  | str a, bool b => a == boolText b
  | a, b => same a b

/-- Equality in conditions. If one of the values is a number and the other reads as one, the numbers
are compared. -/
def looselyEqual (a b : Value) : Bool :=
  if a.isNumeric || b.isNumeric then
    match a.number?, b.number? with
    | some x, some y => x.eq y
    | _, _ => plainlyEqual a b
  else plainlyEqual a b

/-- The order in conditions, of values that have one. Two strings that read as numbers compare as
numbers, others by their characters. -/
def order? : Value → Value → Option Ordering
  | str a, str b =>
    match Binary64.ofText? (Text.trim a), Binary64.ofText? (Text.trim b) with
    | some x, some y => x.order? y
    | _, _ => some (Text.order a b)
  | bool a, bool b => some (compare a.toNat b.toNat)
  | a, b =>
    match a.number?, b.number? with
    | some x, some y => x.order? y
    | _, _ => none

end Value

end Stencil
