import Stencil.Text.Basic

namespace Stencil

/-- The attributes of a tag, by the order in which their keys first came. Positional arguments have
the keys `0`, `1`, …, and holes that stand alone in a tag have the keys `-1`, `-2`, …. -/
structure Attributes where
  entries : List (Text × Text)
deriving Repr, DecidableEq

namespace Attributes

/-- The set without attributes. -/
def empty : Attributes := ⟨[]⟩

instance : Inhabited Attributes := ⟨empty⟩

def insert (a : Attributes) (key value : Text) : Attributes :=
  if a.entries.any (·.1 = key) then
    ⟨a.entries.map fun e => if e.1 = key then (key, value) else e⟩
  else ⟨a.entries ++ [(key, value)]⟩

/-- Gives each key the value paired with it, in turn. -/
def insertAll (a : Attributes) (pairs : List (Text × Text)) : Attributes :=
  pairs.foldl (fun a e => a.insert e.1 e.2) a

def get? (a : Attributes) (key : Text) : Option Text := (a.entries.find? (·.1 = key)).map Prod.snd

def contains (a : Attributes) (key : Text) : Bool := (a.get? key).isSome

def size (a : Attributes) : Nat := a.entries.length

/-- Is there no attribute? -/
def isEmpty (a : Attributes) : Bool := a.entries.isEmpty

def position (n : Nat) : Text := Text.ofNat n

def positional (values : List Text) : Attributes :=
  empty.insertAll ((List.range values.length).map position |>.zip values)

/-- The values at the keys `0`, `1`, … up to the first number that is no key. -/
def args (a : Attributes) : List Text :=
  go a.size 0
where
  go : Nat → Nat → List Text
    | 0, _ => []
    | fuel + 1, n =>
      match a.get? (position n) with
      | some v => v :: go fuel (n + 1)
      | none => []

/-- The attributes whose key is no number. -/
def named (a : Attributes) : List (Text × Text) :=
  a.entries.filter fun e => (Text.toInt64? e.1).isNone

def isSpreadKey : Text → Bool
  | '-' :: digits => (Text.toIndex? digits).isSome
  | _ => false

def spreads (a : Attributes) : List Text := (a.entries.filter fun e => isSpreadKey e.1).map Prod.snd

end Attributes

end Stencil
