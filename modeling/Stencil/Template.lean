import Stencil.Attributes
import Stencil.Block
import Stencil.Codec.Sha256

namespace Stencil

/-- A compiled template: its path without extension, its text with placeholders, references and
markers, the tables that these refer to, and the fingerprint of what it was made from. -/
structure Template where
  path : Text
  html : Text
  attrs : List Attributes
  literals : LiteralTable
  blocks : List Block
  fingerprint : Text
deriving Repr, DecidableEq

namespace Template

def ofHtml (path html : Text) (attrs : List Attributes) (literals : LiteralTable)
    (blocks : List Block) : Template :=
  ⟨path, html, attrs, literals, blocks, Sha256.fingerprint html⟩

/-- The attributes at an index of the table, if a tag has one and the table is long enough. -/
def attributes (t : Template) (index : Option Nat) : Attributes :=
  (index.bind fun n => t.attrs[n]?).getD .empty

end Template

end Stencil
