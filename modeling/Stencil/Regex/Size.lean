import Stencil.Codec.Utf8
import Stencil.Regex.Basic

namespace Stencil.Regex

/-- The room of a state, with the transitions that it holds and the states that it leads to. -/
def stateRoom (transitions choices : Nat) : Nat := 32 + 8 * transitions + 4 * choices

def total (ns : List Nat) : Nat := ns.foldl (· + ·) 0

/-- The bytes of a character. -/
def bytes (n : Nat) : List Nat := (Utf8.encodeChar (Char.ofNat n)).map UInt8.toNat

/-- A range for each byte of a character. -/
abbrev ByteRanges := List (Nat × Nat)

/-- Where to cut a range of code points so that the parts start and end where a block does. -/
def blockCut? (lo hi block : Nat) : Option Nat :=
  if lo / block = hi / block then none
  else if lo % block ≠ 0 then some (lo / block * block + block - 1)
  else if hi % block ≠ block - 1 then some (hi / block * block - 1)
  else none

/-- Where to cut a range of code points that is not made up of one range for each byte: the last
code point before the cut. -/
def cut? (lo hi : Nat) : Option Nat :=
  match [0xD7FF, 0xDFFF, 0x7F, 0x7FF, 0xFFFF].find? fun last => lo ≤ last && last < hi with
  | some last => some last
  | none => if hi ≤ 0x7F then none else [64, 4096, 262144].findSome? (blockCut? lo hi)

/-- The ranges of bytes of a range of code points, by so many cuts of cuts at most. Code points that
are no characters have none. -/
def byteRanges : Nat → Nat → Nat → List ByteRanges
  | 0, _, _ => []
  | fuel + 1, lo, hi =>
    match cut? lo hi with
    | some last => byteRanges fuel lo last ++ byteRanges fuel (last + 1) hi
    | none => if 0xD800 ≤ lo && hi ≤ 0xDFFF then [] else [(bytes lo).zip (bytes hi)]

/-- The ranges of bytes of a class. A range of code points is cut at five bounds at most, and twice
for each size of blocks. -/
def CharClass.byteRanges (k : CharClass) : List ByteRanges :=
  k.flatMap fun (lo, hi) => Regex.byteRanges 16 lo hi

/-- The number of ranges of a character that it does not share with the one before it. -/
def fresh : ByteRanges → ByteRanges → Nat
  | p :: ps, q :: qs => if p = q then fresh ps qs else qs.length + 1
  | _, qs => qs.length

/-- The room of a class in the automaton that reads from the back: characters share the states of
their first bytes. -/
def backwardClassRoom (rs : List ByteRanges) : Nat :=
  stateRoom 0 rs.length + stateRoom 0 0 +
    total ((([] :: rs).zip rs).map fun (before, r) => fresh before r * stateRoom 0 0)

/-- The first ranges of characters, and for each what follows it. -/
def byFirst : List ByteRanges → List ((Nat × Nat) × List ByteRanges)
  | [] => []
  | [] :: rs => byFirst rs
  | (p :: ps) :: rs =>
    match byFirst rs with
    | (q, rests) :: more =>
      if p = q then (q, ps :: rests) :: more else (p, [ps]) :: (q, rests) :: more
    | [] => [(p, [ps])]

/-- What can follow so many bytes and fewer of a character, each once. -/
def continuations : Nat → List (List ByteRanges) → List (List ByteRanges)
  | 0, _ => []
  | n + 1, level =>
    level ++ continuations n
      (((level.flatMap byFirst).map Prod.snd).eraseDups.filter (· != [[]]))

/-- The room of a class in the automaton that reads from the front: places with the same
continuations share a state. -/
def forwardClassRoom (rs : List ByteRanges) : Nat :=
  stateRoom 0 0 +
    total ((continuations 4 [rs]).eraseDups.map fun r => stateRoom (byFirst r).length 0)

/-- The bytes that a pattern stands for, if it is a literal text. -/
def literal? : Regex → Option (List Nat)
  | one [(lo, hi)] => if lo = hi then some (bytes lo) else none
  | seq a b => do return (← literal? a) ++ (← literal? b)
  | _ => none

/-- The runs of texts that are not empty between those that are. -/
def runs : List (List Nat) → List (List (List Nat))
  | [] => [[]]
  | t :: ts =>
    match t, runs ts with
    | [], rs => [] :: rs
    | t, r :: rs => (t :: r) :: rs
    | t, [] => [[t]]

/-- The room of a tree of texts of such a length at most, its last state apart: texts share the
states of what they start with. -/
def treeRoom : Nat → List (List Nat) → Nat
  | 0, _ => 0
  | n + 1, texts =>
    let rs := runs texts
    let full := rs.filter (!·.isEmpty)
    let ways := full.length + (rs.length - 1)
    let runRoom (run : List (List Nat)) : Nat :=
      let firsts := (run.map (·.head?)).eraseDups
      stateRoom (if firsts.length = 1 then 0 else firsts.length) 0 +
        total (firsts.map fun b => treeRoom n ((run.filter (·.head? == b)).map List.tail))
    if full.isEmpty then 0
    else (if ways = 1 then 0 else stateRoom 0 ways) + total (full.map runRoom)

def takesSome : Regex → Bool
  | empty | anchor _ _ => false
  | one k => !k.isEmpty
  | seq a b => a.takesSome || b.takesSome
  | either a b => a.takesSome && b.takesSome
  | repeated r least _ => least != 0 && r.takesSome
  | group r => r.takesSome

/-- What makes the room of a pattern depend on the end from which a text is read. A pattern becomes
two automata that read the bytes of a text in UTF-8, one from the front and one from the back, and
each may take up ten mebibytes. Counted repetitions are copies, so that it is they that make a
pattern large. -/
structure Gauge where
  backward : Bool
  classRoom : List ByteRanges → Nat
  groupRoom : Nat

/-- Reading from the front, where groups are marked by two states. -/
def Gauge.front : Gauge := ⟨false, forwardClassRoom, 2 * stateRoom 0 0⟩

/-- Reading from the back, where groups are not marked. -/
def Gauge.back : Gauge := ⟨true, backwardClassRoom, 0⟩

def Gauge.charClass (g : Gauge) (k : CharClass) : Nat :=
  match literal? (.one k) with
  | some bs => bs.length * stateRoom 0 0
  | none =>
    if k.all fun r => r.2 ≤ 0x7F then stateRoom 0 0 + stateRoom k.length 0
    else g.classRoom k.byteRanges

def Gauge.literals (g : Gauge) (texts : List (List Nat)) : Nat :=
  let texts := if g.backward then texts.map List.reverse else texts
  let longest := texts.foldl (fun n t => max n t.length) 0
  stateRoom 0 0 + treeRoom longest texts

/-- The room of a repeated pattern, given that of one copy of it. -/
def repeatedRoom (takesSome : Bool) (copy least : Nat) : Option Nat → Nat
  | none =>
    let loop := stateRoom 0 2
    if least ≠ 0 then least * copy + loop
    else if takesSome then copy + loop
    else copy + 2 * loop + stateRoom 0 0
  | some greatest =>
    let choice := stateRoom 0 2
    if least = greatest then greatest * copy
    else if greatest = 1 then copy + choice + stateRoom 0 0
    else
      (if least = 0 then stateRoom 0 0 else least * copy) + stateRoom 0 0 +
        (greatest - least) * (copy + choice)

/-- The room of a pattern. A choice inside a choice is part of it. -/
def Gauge.room (g : Gauge) (inChoice : Bool) : Regex → Nat
  | .empty | .anchor _ _ => stateRoom 0 0
  | .one k => g.charClass k
  | .seq a b => g.room false a + g.room false b
  | .either a b =>
    let branches := g.room true a + (if a.alternatives.length = 1 then 4 else 0) +
      g.room true b + (if b.alternatives.length = 1 then 4 else 0)
    if inChoice then branches
    else
      match (Regex.either a b).alternatives.mapM literal? with
      | some texts => g.literals texts
      | none => 2 * stateRoom 0 0 + branches
  | .repeated r least greatest =>
    repeatedRoom r.takesSome (g.room false r) least greatest
  | .group r => g.groupRoom + g.room false r

/-- The room of the automaton of a pattern, with the states that look for a place to start and the
state of a match. The whole pattern is a group. -/
def Gauge.whole (g : Gauge) (r : Regex) : Nat :=
  stateRoom 0 2 + stateRoom 0 0 + stateRoom 1 0 + stateRoom 0 0 + g.room false (.group r)

def fits (r : Regex) : Bool :=
  let limit := 10 * 1024 * 1024
  Gauge.front.whole r ≤ limit && Gauge.back.whole r ≤ limit

end Stencil.Regex
