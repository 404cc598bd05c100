import Stencil.Source.Basic

namespace Stencil

/-- A file, a link to another path, or a directory. -/
inductive FileNode where
  | file (bytes : Bytes)
  | link (target : Text)
  | directory (entries : List (Text × FileNode))
deriving Inhabited

/-- A tree of files, and the names on the way to the directory where paths start. A path may lead
through links. What it really leads to must lie under the real root, so that no link shows what is
outside. -/
structure FileTree where
  top : FileNode
  start : List Text

namespace FileNode

def entry? : FileNode → Text → Option FileNode
  | directory entries, name => (entries.find? (·.1 = name)).map Prod.snd
  | _, _ => none

/-- What names lead to, without links. -/
def at? (node : FileNode) : List Text → Option FileNode
  | [] => some node
  | name :: more => (node.entry? name).bind fun child => child.at? more

mutual

/-- The files and links below a node with a path, each with its path. -/
def leaves (path : Text) : FileNode → List (Text × (Bytes ⊕ Text))
  | file bytes => [(path, .inl bytes)]
  | link target => [(path, .inr target)]
  | directory entries => leavesOf path entries

def leavesOf (path : Text) : List (Text × FileNode) → List (Text × (Bytes ⊕ Text))
  | [] => []
  | (name, node) :: more => leaves (Path.push path name) node ++ leavesOf path more

end

/-- The paths of files and links that are in one tree and not, or not the same, in the other. -/
def changed (path : Text) (old new : FileNode) : List Text :=
  let before := leaves path old
  let after := leaves path new
  ((before.filter fun l => !after.contains l) ++ after.filter fun l => !before.contains l).map
    Prod.fst

def isDirectory : FileNode → Bool
  | directory _ => true
  | _ => false

end FileNode

namespace FileTree

def maxLinks : Nat := 40

/-- Leaves out the last of some names. -/
def parent (names : List Text) : List Text := names.dropLast

/-- Follows components from a place without links in it, as long as they lead to something and so
many links may be met. The first measure is that of links, the second that of components. -/
def follow? (top : FileNode) : Nat → List Text → List Path.Component → Option (List Text)
  | _, place, [] => some place
  | links, _, .root :: more => follow? top links [] more
  | links, place, .here :: more => follow? top links place more
  | links, place, .up :: more =>
    if (top.at? place).any FileNode.isDirectory then follow? top links (parent place) more else none
  | links, place, .name n :: more =>
    match top.at? (place ++ [n]) with
    | none => none
    | some (.link target) =>
      match links with
      | 0 => none
      | links + 1 => follow? top links place (Path.components target ++ more)
    | some _ => follow? top links (place ++ [n]) more
termination_by links _ components => (links, components.length)

/-- The place that a path really leads to, if there is something. A path with a slash at its end
leads to directories only. -/
def realPlace? (t : FileTree) (path : Text) : Option (List Text) :=
  if path.isEmpty then none
  else
    (follow? t.top maxLinks t.start (Path.components path)).filter fun place =>
      path.getLast? ≠ some '/' || (t.top.at? place).any FileNode.isDirectory

/-- The bytes of the file that a path leads to. -/
def read? (t : FileTree) (path : Text) : Option Bytes :=
  match (t.realPlace? path).bind t.top.at? with
  | some (.file bytes) => some bytes
  | _ => none

/-- The path to a name under a root that is not left, by its names or by links. -/
def locate (t : FileTree) (root name : Text) : Except Error Text := do
  if root.isEmpty then throw .missingRoot
  let path ← Path.joinUnder root name
  match t.realPlace? path, t.realPlace? root with
  | some place, some rootPlace =>
    if rootPlace.isPrefixOf place then return path else throw (.pathLeak name)
  | _, _ => return path

def resolve (t : FileTree) : SourcePlace := fun root name => do
  let path ← t.locate root name
  match t.read? path with
  | none => throw (.notFound path)
  | some bytes =>
    match Utf8.decode? bytes with
    | some text => return ⟨path, text⟩
    | none => throw .unreadable

def has (t : FileTree) (root name : Text) : Bool :=
  match t.locate root name with
  | .ok path => (t.read? path).isSome
  | .error _ => false

end FileTree

end Stencil
