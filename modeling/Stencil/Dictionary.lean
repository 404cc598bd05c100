import Stencil.Text.Basic

namespace Stencil

/-- Values by name. The names ascend, so that each is there once. -/
abbrev Dictionary (α : Type) := List (Text × α)

namespace Dictionary

variable {α β : Type}

def get? (d : Dictionary α) (name : Text) : Option α := (d.find? fun e => e.1 = name).map Prod.snd

def has (d : Dictionary α) (name : Text) : Bool := (get? d name).isSome

def insert (d : Dictionary α) (name : Text) (value : α) : Dictionary α :=
  match d with
  | [] => [(name, value)]
  | e :: rest =>
    match Text.order name e.1 with
    | .lt => (name, value) :: e :: rest
    | .eq => (name, value) :: rest
    | .gt => e :: insert rest name value

def erase (d : Dictionary α) (name : Text) : Dictionary α := d.filter fun e => e.1 ≠ name

/-- Gives each name the value paired with it, in turn. -/
def insertAll (d : Dictionary α) (pairs : List (Text × α)) : Dictionary α :=
  pairs.foldl (fun d e => insert d e.1 e.2) d

/-- The dictionary of pairs, where the last pair of a name counts. -/
def ofList (pairs : List (Text × α)) : Dictionary α := insertAll [] pairs

end Dictionary

end Stencil
