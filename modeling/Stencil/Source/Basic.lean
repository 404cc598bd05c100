import Stencil.Source.Path

namespace Stencil

/-- The source of a template, and the path where it was found. -/
structure Source where
  path : Text
  text : Text
deriving Repr, DecidableEq

/-- A place of sources: it looks up a name, extension included, under a root. -/
abbrev SourcePlace := Text → Text → Except Error Source

end Stencil
