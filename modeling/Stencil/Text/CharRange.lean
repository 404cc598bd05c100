import Stencil.Text.Basic

namespace Stencil.CharRange

abbrev Table := List (Nat × Nat)

def hexValue (s : Text) : Nat :=
  s.foldl (fun n c => 16 * n + (if c.isDigit then c.toNat - 48 else c.toNat - 55)) 0

/-- Reads one range, as in `41-5A`, one code point, as in `AA`, or code points that are so many
apart, as in `100-106/2`. -/
def ofWord (w : Text) : Table :=
  let (span, stride) := (Text.cut? ['/'] w).getD (w, [])
  let (first, last) := (Text.cut? ['-'] span).getD (span, span)
  let (lo, hi) := (hexValue first, hexValue last)
  if stride.isEmpty then [(lo, hi)]
  else
    let step := hexValue stride
    (List.range ((hi - lo) / step + 1)).map fun i => (lo + step * i, lo + step * i)

/-- Reads ranges written in hexadecimal, as in `41-5A 61-7A AA`. -/
def ofHex (s : String) : Table := (Text.words s.toList).flatMap ofWord

/-- The row with a name, in a list where each row has its names in front, with blanks between. -/
def row? {α : Type} (name : Text) (rows : List (String × α)) : Option (String × α) :=
  rows.find? fun row => (Text.words row.1.toList).contains name

namespace Table

def has (t : Table) (n : Nat) : Bool := t.any fun (lo, hi) => lo ≤ n && n ≤ hi

/-- Adds a range to a list of ranges before it, last first: a range that meets the one before it
becomes part of it. -/
def extend (before : Table) (r : Nat × Nat) : Table :=
  match before with
  | (lo, hi) :: rest => if r.1 ≤ hi + 1 then (lo, max hi r.2) :: rest else r :: before
  | [] => [r]

def union (a b : Table) : Table :=
  ((a.merge b fun r s => r.1 ≤ s.1).foldl extend []).reverse

def gaps (next : Nat) : Table → Table
  | [] => if next ≤ 0x10FFFF then [(next, 0x10FFFF)] else []
  | (lo, hi) :: rest =>
    if next < lo then (next, lo - 1) :: gaps (hi + 1) rest else gaps (hi + 1) rest

/-- The characters that are not in a set. -/
def outside (t : Table) : Table := gaps 0 t

def both (a b : Table) : Table := (a.outside.union b.outside).outside

/-- The characters of one set that are not in another. -/
def minus (a b : Table) : Table := a.both b.outside

def exactlyOne (a b : Table) : Table := (a.minus b).union (b.minus a)

end Table

def unionAll (ts : List Table) : Table := ts.foldl .union []

def ofList (ns : List Nat) : Table :=
  ((ns.mergeSort fun m n => m ≤ n).foldl (fun t n => Table.extend t (n, n)) []).reverse

def one (c : Char) : Table := [(c.toNat, c.toNat)]

def all : Table := [(0, 0x10FFFF)]

end Stencil.CharRange
