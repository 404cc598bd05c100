import Stencil.Dictionary
import Stencil.Source.Basic

namespace Stencil

/-- Sources by path. There is no root here: a path leads from the top of the table, and all paths
that lead to the same place are one. -/
abbrev SourceTable := Dictionary Text

namespace SourceTable

/-- The path under which a source is kept: one that leads out of the table is kept as it is. -/
def normalize (path : Text) : Text :=
  let path := path.dropWhile (· == '/')
  (Path.joinUnder [] path).toOption.getD path

def add (t : SourceTable) (path source : Text) : SourceTable :=
  Dictionary.insert t (normalize path) source

def remove (t : SourceTable) (path : Text) : SourceTable := Dictionary.erase t (normalize path)

def resolve (t : SourceTable) : SourcePlace := fun _ name => do
  let _ ← Path.joinUnder [] name
  let path := normalize name
  match Dictionary.get? t path with
  | some source => return ⟨path, source⟩
  | none => throw (.notFound path)

end SourceTable

end Stencil
