import Stencil.Expression.Lookup
import Stencil.Loop.Basic

namespace Stencil.Loop

/-- An item with its key, and its position counted from zero. -/
structure Item where
  key : Value
  value : Value
  position : Nat

def Item.ofValues (values : List Value) : List Item :=
  values.zipIdx.map fun (v, i) => ⟨.int i, v, i⟩

def Item.ofEntries (entries : List (Text × Value)) : List Item :=
  entries.zipIdx.map fun ((k, v), i) => ⟨.str k, v, i⟩

def range (start stop : Int) : List Int :=
  let count := (stop - start).natAbs + 1
  if start ≤ stop then (List.range count).map fun (i : Nat) => start + i
  else (List.range count).map fun (i : Nat) => start - i

/-- As many integers as asked for, from zero up, or from zero down for a negative number. -/
def count (n : Int) : List Int :=
  if n = 0 then [] else if 0 < n then range 0 (n - 1) else range 0 (n + 1)

def Item.ofValue : Value → List Item
  | .array items => ofValues items
  | .map entries => ofEntries entries
  | .int n => ofValues ((count n).map .int)
  | .float x => ofValues ((count x.toInt64).map .int)
  | _ => []

/-- The items between two bounds; none if one of them is no integer. -/
def Item.between (start stop : Value) : List Item :=
  match start.int?, stop.int? with
  | some a, some b => ofValues ((range a b).map .int)
  | _, _ => []

/-- The items of a loop in ascending order, unless what it goes through is unknown. -/
def ascending? (l : Loop) (r : Resolver) : Option (List Item) :=
  match Text.cut? ['.', '.'] l.source with
  | some (start, stop) =>
    match r.value start, r.value stop with
    | .found a, .found b => some (Item.between a b)
    | _, _ => none
  | none =>
    match r.value l.source with
    | .found v => some (Item.ofValue v)
    | .unknown => none

def items? (l : Loop) (r : Resolver) : Option (List Item) :=
  (l.ascending? r).map fun items => if l.backwards then items.reverse else items

/-- Binds the value of a name, if there is one. -/
def bindName (scope : Scope) (name : Option Text) (v : Value) : Scope :=
  match name with
  | some name => Dictionary.insert scope name v
  | none => scope

/-- The scope in which the body of a loop is rendered for an item. -/
def bind (l : Loop) (scope : Scope) (item : Item) : Scope :=
  bindName (bindName (bindName scope l.value item.value) l.key item.key) l.position
    (.int item.position)

end Stencil.Loop
