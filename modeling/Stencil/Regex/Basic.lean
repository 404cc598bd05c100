import Stencil.Regex.CharClass

namespace Stencil

/-- What a pattern can ask of a place without taking a character. -/
inductive Regex.Anchor where
  | textStart
  | textEnd
  | lineStart
  | lineEnd
  | lineStartCrlf
  | lineEndCrlf
  | wordBoundary
  | noWordBoundary
  | wordStart
  | wordEnd
  | wordStartHalf
  | wordEndHalf
deriving Repr, DecidableEq

/-- A pattern. An anchor comes with the characters that count as those of words. -/
inductive Regex where
  | empty
  | one (k : Regex.CharClass)
  | anchor (letters : Regex.CharClass) (a : Regex.Anchor)
  | seq (a b : Regex)
  | either (a b : Regex)
  | repeated (r : Regex) (least : Nat) (greatest : Option Nat)
  | group (r : Regex)

namespace Regex

/-- One pattern after another. -/
def andThen : Regex → Regex → Regex
  | empty, b => b
  | a, empty => a
  | a, b => seq a b

def ofParts (rs : List Regex) : Regex := rs.foldl andThen empty

def alternatives : Regex → List Regex
  | either a b => a.alternatives ++ b.alternatives
  | r => [r]

/-- The class of the characters that some patterns of one character take. -/
def oneOf? : List Regex → Option CharClass
  | [] => some []
  | one k :: rs => (oneOf? rs).map k.union
  | _ :: _ => none

/-- A choice between patterns. A choice between single characters is one class. -/
def ofAlternatives (rs : List Regex) : Regex :=
  let rs := rs.flatMap alternatives
  match oneOf? rs with
  | some k => one k
  | none =>
    match rs with
    | [] => empty
    | r :: rs => rs.foldl either r

/-- Does a pattern take no character wherever it matches? -/
def takesNothing : Regex → Bool
  | empty | anchor _ _ => true
  | one _ => false
  | seq a b | either a b => a.takesNothing && b.takesNothing
  | repeated r _ _ | group r => r.takesNothing

/-- A pattern that is repeated. One that takes no character need not be repeated more than once. -/
def repeatedly (r : Regex) (least : Nat) (greatest : Option Nat) : Regex :=
  let (least, greatest) :=
    if r.takesNothing then (min least 1, some (min (greatest.getD 1) 1)) else (least, greatest)
  if greatest = some 0 then empty
  else if least = 1 ∧ greatest = some 1 then r
  else repeated r least greatest

end Regex

end Stencil
