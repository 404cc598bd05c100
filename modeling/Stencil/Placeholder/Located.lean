import Stencil.Placeholder

namespace Stencil.Placeholder

/-- A placeholder of a text, with the numbers of bytes before it and up to its end. -/
structure Located where
  placeholder : Placeholder
  start : Nat
  stop : Nat
deriving Repr, DecidableEq

/-- Reads the placeholder at a place of a text. -/
def readAt? (s : Text) (start : Nat) : Option Located :=
  (Text.dropBytes? start s).bind fun t => (read? t).map fun (p, rest) =>
    ⟨p, start, Text.byteLength s - Text.byteLength rest⟩

/-- The first placeholder of a text from a place on. -/
def nextFrom? (s : Text) (start : Nat) : Option Located :=
  (Text.dropBytes? start s).bind fun t => (next? t).map fun f =>
    ⟨f.placeholder, start + Text.byteLength f.before, Text.byteLength s - Text.byteLength f.after⟩

end Stencil.Placeholder
