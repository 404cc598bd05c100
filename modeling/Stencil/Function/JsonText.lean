import Stencil.Function.Call

namespace Stencil.JsonText

/-- The JSON text of a value with so many spaces a level, none for a text in one line, and a margin
of so many spaces before all lines but the first. Angle brackets are escaped, so that the text can
stand in a script. -/
def write (v : Value) (indent margin : Nat) : Text :=
  let text :=
    if indent = 0 then Json.compact v else Json.pretty (List.replicate indent ' ') 0 v
  let text := Text.replace ['<'] "\\u003c".toList text
  if margin = 0 then text else Text.replace ['\n'] ('\n' :: List.replicate margin ' ') text

/-- The number of spaces that an attribute gives, by its name or its position. -/
def spaces (c : Call) (key position : Text) : Nat :=
  match (c.attrs.get? key).or (c.attrs.get? position) with
  | some raw => ((c.resolver.value raw).value.int?.getD 0).toNat
  | none => 0

def call (c : Call) : Text :=
  write (c.value ['0']).value (spaces c "indent".toList ['1']) (spaces c "prefix".toList ['2'])

end Stencil.JsonText
