import Stencil.Text.Basic

namespace Stencil

/-- How a table came about: by its own header, by a header of a table below it, by a dotted key, or
as a value. This decides what may still be added: a header adds to all tables but inline ones, a
dotted key only to tables that have no header of their own. -/
inductive Toml.Origin where
  | header
  | implied
  | dotted
  | inline
deriving Repr, DecidableEq

/-- A value of a document. Of floats and dates only the kind is kept. A list of tables comes from
headers in double brackets. -/
inductive Toml where
  | string (s : Text)
  | integer (i : Int)
  | float
  | boolean (b : Bool)
  | date
  | array (items : List Toml)
  | table (origin : Toml.Origin) (entries : List (Text × Toml))
  | tables (items : List (List (Text × Toml)))

namespace Toml

abbrev Entries := List (Text × Toml)

namespace Entries

def get? (es : Entries) (key : Text) : Option Toml := (es.find? (·.1 = key)).map Prod.snd

def replace (es : Entries) (key : Text) (v : Toml) : Entries :=
  es.map fun e => if e.1 = key then (key, v) else e

/-- Adds a key that is not there. -/
def add? (es : Entries) (key : Text) (v : Toml) : Option Entries :=
  if (es.get? key).isSome then none else some (es ++ [(key, v)])

end Entries

/-- How a path leads on through tables: by a header, or by a dotted key. -/
inductive Way where
  | header
  | dotted
deriving Repr, DecidableEq

def Way.origin : Way → Origin
  | header => .implied
  | dotted => .dotted

def Way.enters : Way → Origin → Bool
  | _, .inline => false
  | .header, _ => true
  | .dotted, origin => origin == .implied || origin == .dotted

/-- Changes the table at a path, making those on the way that are not there. A list of tables stands
for its last one. -/
def change? (way : Way) (change : Origin → Entries → Option Entries) :
    List Text → Origin → Entries → Option Entries
  | [], origin, es => change origin es
  | key :: more, _, es =>
    match es.get? key with
    | none =>
      (change? way change more way.origin []).map fun inner =>
        es ++ [(key, table way.origin inner)]
    | some (table origin inner) =>
      if way.enters origin then
        (change? way change more origin inner).map fun inner => es.replace key (table origin inner)
      else none
    | some (tables items) =>
      (change? way change more .header (items.getLast?.getD [])).map fun inner =>
        es.replace key (tables (items.dropLast ++ [inner]))
    | some _ => none

/-- Adds a value under a key that may be dotted. A dotted key adds to no table that another way has
led to. -/
def addKey? (path : List Text) (v : Toml) (origin : Origin) (es : Entries) : Option Entries :=
  match path.getLast? with
  | none => none
  | some key =>
    change? .dotted
      (fun origin inner =>
        if (origin == .dotted) == path.dropLast.isEmpty then none else inner.add? key v)
      path.dropLast origin es

def openTable? (path : List Text) (root : Entries) : Option Entries :=
  match path.getLast? with
  | none => none
  | some key =>
    change? .header
      (fun _ es =>
        match es.get? key with
        | none => some (es ++ [(key, table .header [])])
        | some (table .implied inner) => some (es.replace key (table .header inner))
        | _ => none)
      path.dropLast .header root

def openItem? (path : List Text) (root : Entries) : Option Entries :=
  match path.getLast? with
  | none => none
  | some key =>
    change? .header
      (fun _ es =>
        match es.get? key with
        | none => some (es ++ [(key, tables [[]])])
        | some (tables items) => some (es.replace key (tables (items ++ [[]])))
        | _ => none)
      path.dropLast .header root

end Toml

end Stencil
