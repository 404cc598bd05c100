import Stencil.Source.Path

namespace Stencil.Changes

def samePath (a b : Text) : Bool := Path.components a == Path.components b

/-- Keeps of neighbours that are the same path the first one. -/
def dedupe : List Text → List Text
  | [] => []
  | [p] => [p]
  | p :: q :: more => if samePath p q then dedupe (p :: more) else p :: dedupe (q :: more)

/-- The templates among changed files, by their paths below the root, in order, and each once. -/
def templates (paths : List Text) (root ext : Text) : List Text :=
  let relevant := (paths.filter fun p => Path.extension? p = some ext).map fun p =>
    (Path.strip? root p).getD p
  dedupe (relevant.mergeSort fun p q => (Path.order (Path.components p) (Path.components q)).isLE)

end Stencil.Changes
