import Stencil.Error

namespace Stencil.Path

/-- A component of a path. -/
inductive Component where
  | root
  | here
  | up
  | name (name : Text)
deriving Repr, DecidableEq

namespace Component

def ofPart? (part : Text) : Option Component :=
  if part = [] ∨ part = ['.'] then none
  else if part = ['.', '.'] then some up
  else some (name part)

def rank : Component → Nat
  | root => 0
  | here => 1
  | up => 2
  | name _ => 3

def order : Component → Component → Ordering
  | name a, name b => Text.order a b
  | a, b => compare a.rank b.rank

end Component

def components (path : Text) : List Component :=
  let parts := Text.splitOn ['/'] path
  let lead : List Component :=
    match parts with
    | [] :: _ :: _ => [.root]
    | ['.'] :: _ => [.here]
    | _ => []
  lead ++ parts.filterMap Component.ofPart?

def order : List Component → List Component → Ordering
  | [], [] => .eq
  | [], _ :: _ => .lt
  | _ :: _, [] => .gt
  | a :: as, b :: bs => (a.order b).then (order as bs)

def push (path part : Text) : Text :=
  if path.isEmpty ∨ path.getLast? = some '/' then path ++ part else path ++ ['/'] ++ part

/-- Follows components down from a directory, given the names on the way to it backwards. There is
no way up from that directory. -/
def descend? : List Text → List Component → Option (List Text)
  | names, [] => some names.reverse
  | names, .name n :: more => descend? (n :: names) more
  | names, .root :: more | names, .here :: more => descend? names more
  | [], .up :: _ => none
  | _ :: names, .up :: more => descend? names more

/-- The names on the way that a path leads down from a root, if it does not leave it. -/
def below? (name : Text) : Option (List Text) := descend? [] (components name)

/-- The path to a name under a root. A name that leads out of the root is refused. -/
def joinUnder (root name : Text) : Except Error Text :=
  match below? name with
  | some names => .ok (names.foldl push root)
  | none => .error (.pathLeak name)

/-- The extension of the last component: what follows its last point, if something is before. -/
def extension? (path : Text) : Option Text :=
  match (components path).getLast? with
  | some (.name n) =>
    (Text.cutLast? '.' n).bind fun (stem, ext) => if stem.isEmpty then none else some ext
  | _ => none

/-- What follows the component at the start of a path, without slashes and points in front. -/
def dropComponent (path : Text) : Text :=
  match path with
  | '/' :: rest => skip rest
  | _ => skip (path.dropWhile (· != '/'))
where
  /-- Leaves out slashes, and points that stand for the same directory. -/
  skip : Text → Text
    | [] => []
    | ['.'] => []
    | '/' :: s => skip s
    | '.' :: '/' :: s => skip s
    | s => s

/-- A path without slashes at its end, and without points that stand for the same directory
there. -/
def dropTail (path : Text) : Text :=
  (skip path.reverse).reverse
where
  /-- Leaves out the signs, in a path written backwards. -/
  skip : Text → Text
    | ['/'] => ['/']
    | '/' :: s => skip s
    | '.' :: '/' :: s => skip ('/' :: s)
    | s => s
  termination_by s => s.length

/-- The part of a path below a root, if it is there. -/
def strip? (root path : Text) : Option Text :=
  let rootParts := components root
  if rootParts.isPrefixOf (components path) then
    some (dropTail (rootParts.foldl (fun p _ => dropComponent p) path))
  else none

end Stencil.Path
