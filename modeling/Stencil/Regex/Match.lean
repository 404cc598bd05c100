import Stencil.Regex.Basic

namespace Stencil.Regex

/-- The set of places without repetitions. -/
def union (a b : List Nat) : List Nat := a ++ b.filter fun p => !a.contains p

def Anchor.holds (a : Anchor) (letters : CharClass) (before after : Option Char) : Bool :=
  let w (c : Option Char) : Bool := c.any fun c => letters.has c.toNat
  match a with
  | textStart => before.isNone
  | textEnd => after.isNone
  | lineStart => before.all (· == '\n')
  | lineEnd => after.all (· == '\n')
  | lineStartCrlf => before.all fun c => c == '\n' || (c == '\r' && after != some '\n')
  | lineEndCrlf => after.all fun c => c == '\r' || (c == '\n' && before != some '\r')
  | wordBoundary => w before != w after
  | noWordBoundary => w before == w after
  | wordStart => !w before && w after
  | wordEnd => w before && !w after
  | wordStartHalf => !w before
  | wordEndHalf => !w after

/-- Applies a step so many times. A step that changes nothing is not repeated. -/
def times (f : List Nat → List Nat) : Nat → List Nat → List Nat
  | 0, ps => ps
  | n + 1, ps => if f ps = ps then ps else times f n (f ps)

/-- The places that are seen, and those that at most so many steps reach from the newest of them. -/
def reach (f : List Nat → List Nat) : Nat → List Nat → List Nat → List Nat
  | 0, seen, _ => seen
  | n + 1, seen, newest =>
    let found := (f newest).filter fun p => !seen.contains p
    if found.isEmpty then seen else reach f n (seen ++ found) found

/-- The places where matches end that start at the given places. Repeating a pattern more often than
the text has places leads nowhere new, so that every count can be held to that number. -/
def ends (text : Array Char) : Regex → List Nat → List Nat
  | empty, ps => ps
  | one k, ps => (ps.filter fun p => text[p]?.any fun c => k.has c.toNat).map (· + 1)
  | anchor letters a, ps =>
    ps.filter fun p =>
      a.holds letters (if p = 0 then none else text[p - 1]?) text[p]?
  | seq a b, ps => ends text b (ends text a ps)
  | either a b, ps => union (ends text a ps) (ends text b ps)
  | repeated r least greatest, ps =>
    let bound := text.size + 1
    let first := times (ends text r) (min least bound) ps
    let more := match greatest with
      | some n => min (n - least) bound
      | none => bound
    reach (ends text r) more first first
  | group r, ps => ends text r ps

def isMatch (r : Regex) (s : Text) : Bool :=
  !(ends s.toArray r (List.range (s.length + 1))).isEmpty

end Stencil.Regex
