import Stencil.Json.Printer

namespace Stencil.Value

def text : Value → Text
  | .null => []
  | .bool b => boolText b
  | .int i => Stencil.Text.ofInt i
  | .float x => x.text
  | .str s => s
  | .array items => Json.compact (.array items)
  | .map entries => Json.compact (.map entries)

/-- The item of an array at a position, or the value of a name in a dictionary. -/
def index? (v key : Value) : Option Value :=
  match v with
  | .array items => key.int?.bind fun i => if i < 0 then none else items[i.toNat]?
  | .map entries => Dictionary.get? entries key.text
  | _ => none

def quoteChar (c : Char) : Text := if c = '\\' ∨ c = '\'' then ['\\', c] else [c]

/-- The token that stands for a value in a condition. A value that is no scalar is only true or
false there. -/
def token : Value → Text
  | .null => "null".toList
  | .str s => '\'' :: s.flatMap quoteChar ++ ['\'']
  | .float x => (x.wholeText?).getD x.text
  | .bool b => boolText b
  | .int i => Stencil.Text.ofInt i
  | .array items => boolText (!items.isEmpty)
  | .map entries => boolText (!entries.isEmpty)

end Stencil.Value
