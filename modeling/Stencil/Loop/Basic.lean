import Stencil.Expression.Basic

namespace Stencil

/-- A loop: what it goes through, the names that it binds, and whether it runs backwards. The first
argument of the tag is what to go through; names for the item, its key and its position follow,
after a word that tells which, or in this order. -/
structure Loop where
  source : Text
  value : Option Text
  key : Option Text
  position : Option Text
  backwards : Bool
deriving Repr, DecidableEq

namespace Loop

/-- What a loop can bind to a name. -/
inductive Role where
  | value
  | key
  | position
deriving Repr, DecidableEq

def Role.ofWord? (word : Text) : Option Role :=
  if word = "as".toList then some value
  else if word = "of".toList then some key
  else if word = "in".toList then some position
  else none

def name? (l : Loop) : Role → Option Text
  | .value => l.value
  | .key => l.key
  | .position => l.position

def assign (l : Loop) (role : Role) (name : Text) : Loop :=
  match role with
  | .value => { l with value := some name }
  | .key => { l with key := some name }
  | .position => { l with position := some name }

/-- Gives the first role without a name this name. If all have one, it counts for nothing. -/
def assignNext (l : Loop) (name : Text) : Loop :=
  match [Role.value, .key, .position].find? fun r => (l.name? r).isNone with
  | some role => l.assign role name
  | none => l

def isBackwards (word : Text) : Bool := word = "desc".toList || word = "reverse".toList

/-- Reads arguments after the first: the loop, and the names without a word before them. A word that
comes last announces nothing. -/
def readArgs (l : Loop) : List Text → Loop × List Text
  | [] => (l, [])
  | word :: rest =>
    match Role.ofWord? word, rest with
    | some role, name :: rest => readArgs (l.assign role name) rest
    | _, rest =>
      if isBackwards word then readArgs { l with backwards := true } rest
      else
        let (l, names) := readArgs l rest
        (l, word :: names)

/-- Names the item after the last part of a path, if nothing else does. -/
def nameItem (l : Loop) : Loop :=
  if l.value.isNone && !Text.has ['.', '.'] l.source && !Expression.isLiteral l.source then
    { l with value := (Text.splitOn ['.'] l.source).getLast? }
  else l

def ofArgs? : List Text → Option Loop
  | [] => none
  | source :: rest =>
    let (l, names) := readArgs ⟨source, none, none, none, false⟩ rest
    some (names.foldl assignNext l).nameItem

def names (l : Loop) : List Text := [l.value, l.key, l.position].filterMap id

end Loop

end Stencil
