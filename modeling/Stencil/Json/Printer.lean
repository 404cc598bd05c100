import Stencil.Value.Basic

namespace Stencil.Json

/-- A hexadecimal digit in lower case. -/
def hexDigit (n : Nat) : Char := if n < 10 then Char.ofNat (48 + n) else Char.ofNat (87 + n)

/-- One character of a string. Only the quote, the backslash and control characters are escaped. -/
def escapeChar (c : Char) : Text :=
  if c = '"' then ['\\', '"']
  else if c = '\\' then ['\\', '\\']
  else if c.toNat = 8 then ['\\', 'b']
  else if c.toNat = 12 then ['\\', 'f']
  else if c = '\n' then ['\\', 'n']
  else if c = '\r' then ['\\', 'r']
  else if c = '\t' then ['\\', 't']
  else if c.toNat < 32 then
    ['\\', 'u', '0', '0', hexDigit (c.toNat / 16), hexDigit (c.toNat % 16)]
  else [c]

def string (s : Text) : Text := '"' :: s.flatMap escapeChar ++ ['"']

mutual

/-- The JSON text of a value without any blanks. A number that is not finite has no JSON form and is
written as `null`. -/
def compact : Value → Text
  | .null => "null".toList
  | .bool b => Value.boolText b
  | .int i => Text.ofInt i
  | .float x => (x.json?).getD "null".toList
  | .str s => string s
  | .array items => '[' :: compactItems items ++ [']']
  | .map entries => '{' :: compactEntries entries ++ ['}']

def compactItems : List Value → Text
  | [] => []
  | [v] => compact v
  | v :: w :: vs => compact v ++ [','] ++ compactItems (w :: vs)

def compactEntries : List (Text × Value) → Text
  | [] => []
  | [(k, v)] => string k ++ [':'] ++ compact v
  | (k, v) :: e :: es => string k ++ [':'] ++ compact v ++ [','] ++ compactEntries (e :: es)

end

def newLine (indent : Text) (depth : Nat) : Text := '\n' :: (List.replicate depth indent).flatten

mutual

/-- The JSON text of a value with each item and entry on a line of its own. -/
def pretty (indent : Text) (depth : Nat) : Value → Text
  | .array [] => ['[', ']']
  | .map [] => ['{', '}']
  | .array (v :: vs) =>
    ['['] ++ prettyItems indent (depth + 1) (v :: vs) ++ newLine indent depth ++ [']']
  | .map (e :: es) =>
    ['{'] ++ prettyEntries indent (depth + 1) (e :: es) ++ newLine indent depth ++ ['}']
  | .null => compact .null
  | .bool b => compact (.bool b)
  | .int i => compact (.int i)
  | .float x => compact (.float x)
  | .str s => compact (.str s)

def prettyItems (indent : Text) (depth : Nat) : List Value → Text
  | [] => []
  | [v] => newLine indent depth ++ pretty indent depth v
  | v :: w :: vs =>
    newLine indent depth ++ pretty indent depth v ++ [','] ++ prettyItems indent depth (w :: vs)

def prettyEntries (indent : Text) (depth : Nat) : List (Text × Value) → Text
  | [] => []
  | [(k, v)] => newLine indent depth ++ string k ++ [':', ' '] ++ pretty indent depth v
  | (k, v) :: e :: es =>
    newLine indent depth ++ string k ++ [':', ' '] ++ pretty indent depth v ++ [','] ++
      prettyEntries indent depth (e :: es)

end

end Stencil.Json
